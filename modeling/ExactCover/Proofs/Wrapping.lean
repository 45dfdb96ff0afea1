import ExactCover.AnyPuzzle
import ExactCover.Proofs.Search.Refinement

/-!
# Wrapped puzzles

A puzzle of either kind behaves as the puzzle that it wraps. What a wrapper has to get right is said
operation by operation. All that a search does with a puzzle goes through these operations, so it
takes the same turns on the wrapped puzzle: the nodes touched, the point where the budget runs out
and the solutions that the rules refuse are the same, and so are the moves found, but for their
wrapping.

* **`Puzzle.Wraps`**: what a wrapper has to get right.
* **`Puzzle.attemptsAmong`**: moves of any kind, offered to a puzzle one after the other.
* **`Puzzle.Wraps.descend`**, **`Puzzle.Wraps.solveWith`**: the search below some moves, and a whole
  search on any matrix whatever, with any operations.
* **`Puzzle.Wraps.attempts`**: what comes of offering moves to the wrapped puzzle.
* **`AnyPuzzle.wrapped_solve_attempts`**: Sudokus and families, wrapped as puzzles of either kind.
-/

namespace ExactCover

open Search (Options Progress Answer Outcome)

/-! ## What a wrapper does -/

namespace Puzzle

variable {σ τ μ ν : Type} [Puzzle σ μ] [Puzzle τ ν]

/-- Each operation on a wrapped state is the operation on the state itself, with the moves that it
gives out wrapped. `own?` takes the wrapping off a move, and has nothing for a foreign one, which
every wrapped state refuses. -/
structure Wraps [Move μ] [Move ν] (state : σ → τ) (move : μ → ν) (own? : ν → Option μ) :
    Prop where
  keys : ∀ a, Move.keys (move a) = Move.keys a
  constraints : ∀ p, Puzzle.constraints (state p) = Puzzle.constraints p
  rows : ∀ p, Puzzle.rows (state p) = Puzzle.rows p
  initial : ∀ p, Puzzle.initial (state p) = (Puzzle.initial p).map move
  own : ∀ a, own? (move a) = some a
  play? : ∀ p b, Puzzle.play? (state p) b = ((own? b).bind (Puzzle.play? p)).map state
  isSolved : ∀ p, Puzzle.isSolved (state p) = Puzzle.isSolved p
  ofKeys? : ∀ p keys, Puzzle.ofKeys? (state p) keys = (Puzzle.ofKeys? p keys).map move

/-- What comes of offering moves one after the other: of each move whether it was accepted, and the
state after it. -/
def attempts (p : σ) : List μ → List (Bool × σ)
  | [] => []
  | a :: moves => ((play? p a).isSome, playOrSkip p a) :: attempts (playOrSkip p a) moves

/-- The same for moves of any kind. One that is no move of the puzzle is refused and changes
nothing. -/
def attemptsAmong (own? : ν → Option μ) (p : σ) : List ν → List (Bool × σ)
  | [] => []
  | b :: moves =>
    match own? b with
    | none => (false, p) :: attemptsAmong own? p moves
    | some a => ((play? p a).isSome, playOrSkip p a) :: attemptsAmong own? (playOrSkip p a) moves

end Puzzle

/-- The answer of a search, its moves changed by `f`. -/
def Search.Answer.map {μ ν : Type} (f : μ → ν) (answer : Answer μ) : Answer ν :=
  (answer.1, answer.2.map (List.map f))

/-- The end of a search, its moves changed by `f`. The tally and the matrix hold no moves. -/
def Search.Outcome.map {μ ν : Type} (f : μ → ν) (out : Outcome μ) : Outcome ν where
  moves := out.moves.map f
  tally := out.tally
  matrix := out.matrix

namespace Puzzle.Wraps

variable {σ τ μ ν : Type} [Puzzle σ μ] [Puzzle τ ν] [Move μ] [Move ν] {state : σ → τ} {move : μ → ν}
  {own? : ν → Option μ}

theorem replay? (h : Wraps state move own?) (p : σ) (moves : List μ) :
    Puzzle.replay? (state p) (moves.map move) = (Puzzle.replay? p moves).map state := by
  induction moves generalizing p with
  | nil => rfl
  | cons a moves ih =>
    have hplay : Puzzle.play? (state p) (move a) = (Puzzle.play? p a).map state := by
      rw [h.play?, h.own, Option.bind_some]
    simp only [Puzzle.replay?, List.map_cons, List.foldlM_cons, hplay] at ih ⊢
    cases Puzzle.play? p a with
    | none => rfl
    | some p' => exact ih p'

theorem isSolvedBy (h : Wraps state move own?) (p : σ) (moves : List μ) :
    Puzzle.isSolvedBy (state p) (moves.map move) = Puzzle.isSolvedBy p moves := by
  rw [Puzzle.isSolvedBy, h.replay?, Option.any_map, Puzzle.isSolvedBy]
  exact congrArg (Option.any · _) (funext h.isSolved)

theorem accept (h : Wraps state move own?) (p : σ) (chosen : List μ) :
    Search.accept (state p) (chosen.map move) = (Search.accept p chosen).map (List.map move) := by
  rw [Search.accept, h.isSolvedBy, Search.accept]
  split_ifs <;> rfl

theorem ofRow? (h : Wraps state move own?) (p : σ) (m : Matrix) (id : NodeId) :
    Puzzle.ofRow? (state p) m id = (Puzzle.ofRow? p m id).map (Option.map move) := by
  simp only [Puzzle.ofRow?]
  cases m.rowKeys id with
  | error fault => rfl
  | ok keys => exact congrArg Except.ok (h.ofKeys? p keys)

/-- The rows of one column, if the search below each of them answers as on the puzzle itself.
Induction on the bound of the walk. -/
theorem tryRows (h : Wraps state move own?) (k : CoverOps) {p : σ}
    {below : List μ → Progress → Except Fault (Answer μ)}
    {below' : List ν → Progress → Except Fault (Answer ν)}
    (hbelow : ∀ chosen progress,
      below' (chosen.map move) progress = (below chosen progress).map (Answer.map move))
    (header : NodeId) (chosen : List μ) (fuel : Nat) (row : NodeId) (progress : Progress) :
    k.tryRows (state p) below' header (chosen.map move) fuel row progress =
      (k.tryRows p below header chosen fuel row progress).map (Answer.map move) := by
  induction fuel generalizing row progress with
  | zero => rfl
  | succ fuel ih =>
    obtain ⟨matrix, explored, aborted⟩ := progress
    rw [CoverOps.tryRows, CoverOps.tryRows, h.ofRow?]
    by_cases hend : row = header ∨ aborted = true
    · rw [if_pos hend, if_pos hend]
      rfl
    · rw [if_neg hend, if_neg hend]
      rcases Puzzle.ofRow? p matrix row with fault | _ | a
      · rfl
      · simp only [Except.map, Option.map_none, ok_bind]
        cases matrix.mesh.node row with
        | error fault => rfl
        | ok n => exact ih _ _
      · simp only [Except.map, Option.map_some, ok_bind]
        rcases k.coverRow row matrix with fault | ⟨covered, touched⟩
        · rfl
        · have hsearch := hbelow (chosen ++ [a]) ⟨covered, explored + touched, aborted⟩
          rw [List.map_append, List.map_singleton] at hsearch
          simp only [ok_bind, hsearch]
          rcases below (chosen ++ [a]) ⟨covered, explored + touched, aborted⟩ with
            fault | ⟨⟨left, explored', aborted'⟩, found⟩
          · rfl
          · simp only [Except.map, Answer.map, ok_bind]
            rcases k.uncoverRow row left with fault | restored
            · rfl
            · cases found with
              | some moves => rfl
              | none =>
                simp only [Option.map_none, ok_bind]
                cases restored.mesh.node row with
                | error fault => rfl
                | ok n => exact ih _ _

/-- **The search below some moves.** Induction on the depth. -/
theorem descend (h : Wraps state move own?) (k : CoverOps) (p : σ) (o : Options) (depth : Nat)
    (chosen : List μ) (progress : Progress) :
    k.descend (state p) o depth (chosen.map move) progress =
      (k.descend p o depth chosen progress).map (Answer.map move) := by
  induction depth generalizing chosen progress with
  | zero =>
    obtain ⟨matrix, explored, aborted⟩ := progress
    rw [CoverOps.descend, CoverOps.descend, h.accept]
    split_ifs
    · rfl
    · rcases o.branching.choose matrix with fault | _ | c
      · rfl
      · rfl
      · rfl
  | succ depth ih =>
    obtain ⟨matrix, explored, aborted⟩ := progress
    rw [CoverOps.descend, CoverOps.descend, h.accept]
    split_ifs
    · rfl
    · rcases o.branching.choose matrix with fault | _ | c
      · rfl
      · rfl
      · simp only [ok_bind]
        cases matrix.column c with
        | error fault => rfl
        | ok column =>
          simp only [ok_bind]
          rcases k.cover c matrix with fault | ⟨covered, touched⟩
          · rfl
          · simp only [ok_bind]
            cases covered.mesh.node column.header with
            | error fault => rfl
            | ok n =>
              simp only [ok_bind, h.tryRows k ih]
              rcases k.tryRows p (k.descend p o depth) column.header chosen
                (k.steps covered) n.down ⟨covered, explored + touched, aborted⟩ with
                fault | ⟨⟨left, explored', aborted'⟩, found⟩
              · rfl
              · simp only [Except.map, Answer.map, ok_bind]
                cases k.uncover c left with
                | error fault => rfl
                | ok restored => rfl

/-- **A whole search, on any matrix whatever.** -/
theorem solveWith (h : Wraps state move own?) (k : CoverOps) (p : σ) (o : Options) (m : Matrix) :
    k.solveWith (state p) o m = (k.solveWith p o m).map (Outcome.map move) := by
  have hkeys : ((Puzzle.initial p).map move).flatMap Move.keys =
      (Puzzle.initial p).flatMap Move.keys := by
    rw [List.flatMap_map]
    exact List.flatMap_congr fun a _ => h.keys a
  simp only [CoverOps.solveWith, h.initial, hkeys, List.length_map]
  rcases m.extent with fault | ⟨columns, nodes⟩
  · rfl
  simp only [ok_bind]
  rcases k.precover ((Puzzle.initial p).flatMap Move.keys) m with
    fault | ⟨matrix, covered, skipped⟩
  · rfl
  simp only [ok_bind]
  cases matrix.live with
  | error fault => rfl
  | ok live =>
    have hdescend := h.descend k p o (k.depth o matrix live.length) [] ⟨matrix, 0, false⟩
    simp only [ok_bind, List.map_nil] at hdescend ⊢
    rw [hdescend]
    rcases k.descend p o (k.depth o matrix live.length) [] ⟨matrix, 0, false⟩ with
      fault | ⟨⟨left, explored, aborted⟩, found⟩
    · rfl
    · simp only [Except.map, Answer.map, ok_bind]
      cases covered.foldlM (fun m c => k.uncover c m) left with
      | error fault => rfl
      | ok restored => cases found <;> rfl

theorem solve (h : Wraps state move own?) (p : σ) (o : Options) :
    Search.solve (state p) o = (Search.solve p o).map (Outcome.map move) := by
  have hmatrix : Puzzle.matrix (state p) = Puzzle.matrix p := by
    rw [Puzzle.matrix, Puzzle.matrix, h.constraints, h.rows]
  rw [Search.solve, Search.solve, hmatrix]
  cases Puzzle.matrix p with
  | error fault => rfl
  | ok m => exact h.solveWith CoverOps.listed p o m

/-- A search on the puzzle's own matrix ends, whether wrapped or not, and in the same way. -/
theorem solve_ok (h : Wraps state move own?) (p : σ) (o : Options) :
    ∃ out, Search.solve p o = .ok out ∧ Search.solve (state p) o = .ok (out.map move) := by
  obtain ⟨m, hsolve⟩ := solve_eq p o
  refine ⟨_, hsolve, ?_⟩
  rw [h.solve, hsolve]
  rfl

/-- **Moves offered one after the other.** A foreign move is refused, any other is accepted if the
puzzle itself accepts it, and the state stays the wrapped state throughout. Induction on the
moves. -/
theorem attempts (h : Wraps state move own?) (p : σ) (moves : List ν) :
    Puzzle.attempts (state p) moves =
      (Puzzle.attemptsAmong own? p moves).map (Prod.map id state) := by
  induction moves generalizing p with
  | nil => rfl
  | cons b moves ih =>
    simp only [Puzzle.attempts, Puzzle.attemptsAmong, Puzzle.playOrSkip, h.play?]
    cases own? b with
    | none => exact congrArg _ (ih p)
    | some a =>
      simp only [Option.bind_some]
      cases Puzzle.play? p a with
      | none => exact congrArg _ (ih p)
      | some p' => exact congrArg _ (ih p')

end Puzzle.Wraps

/-! ## Puzzles of either kind -/

/-- The placement that a move is, if it is one. -/
def AnyMove.placement? : AnyMove → Option Sudoku.Placement
  | .placement p => some p
  | .choice _ => none

/-- The choice that a move is, if it is one. -/
def AnyMove.choice? : AnyMove → Option Family.Choice
  | .placement _ => none
  | .choice c => some c

namespace AnyPuzzle

theorem wraps_sudoku : Puzzle.Wraps sudoku AnyMove.placement AnyMove.placement? where
  keys _ := rfl
  constraints _ := rfl
  rows _ := rfl
  initial _ := rfl
  own _ := rfl
  play? _ b := by cases b <;> rfl
  isSolved _ := rfl
  ofKeys? _ _ := rfl

theorem wraps_family : Puzzle.Wraps family AnyMove.choice AnyMove.choice? where
  keys _ := rfl
  constraints _ := rfl
  rows _ := rfl
  initial _ := rfl
  own _ := rfl
  play? _ b := by cases b <;> rfl
  isSolved _ := rfl
  ofKeys? _ _ := rfl

/-- **Wrapping changes nothing.** For a Sudoku and for a family, in any state: a search on the
wrapped puzzle ends as a search on the puzzle itself, with the same moves in the same order, each
wrapped, and the same tally and matrix. And whatever moves are offered to the wrapped puzzle, it
accepts those of its own kind that the puzzle itself accepts, and is the wrapped puzzle after each
of them; any other move changes nothing. -/
theorem wrapped_solve_attempts :
    ((∀ (s : Sudoku) (o : Options), ∃ out, Search.solve s o = .ok out ∧
        Search.solve (sudoku s) o = .ok (out.map AnyMove.placement)) ∧
      ∀ (s : Sudoku) (moves : List AnyMove), Puzzle.attempts (sudoku s) moves =
        (Puzzle.attemptsAmong AnyMove.placement? s moves).map (Prod.map id sudoku)) ∧
    ((∀ (f : Family) (o : Options), ∃ out, Search.solve f o = .ok out ∧
        Search.solve (family f) o = .ok (out.map AnyMove.choice)) ∧
      ∀ (f : Family) (moves : List AnyMove), Puzzle.attempts (family f) moves =
        (Puzzle.attemptsAmong AnyMove.choice? f moves).map (Prod.map id family)) :=
  ⟨⟨wraps_sudoku.solve_ok, wraps_sudoku.attempts⟩, wraps_family.solve_ok, wraps_family.attempts⟩

end AnyPuzzle

end ExactCover
