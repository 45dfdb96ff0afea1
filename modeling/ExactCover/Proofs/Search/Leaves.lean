import ExactCover.Command.Report
import ExactCover.Proofs.Search.Exhaustive
import ExactCover.Proofs.Search.Refinement

/-!
# The leaves of a search

A search comes to a leaf where no column is left: the rows that were chosen on the way are a
complete cover then, and the puzzle is asked to replay their moves. If it refuses, the search goes
on, and the moves are forgotten. So a search passes by any number of leaves, and it ends at the
first one that the puzzle accepts.

The leaves are listed beside the search: the same walk along the same links, which asks the search
itself what it found below a row and how it left the matrix.

* **`CoverOps.leaves`, `Search.leaves`**: the complete covers that a search comes to, in order.
* **`CoverOps.tryRows_leaves`, `CoverOps.descend_leaves`**: on any matrix whatever, a search finds
  the first of its leaves that the puzzle accepts.
* **`Command.report_verifies`**: what the program finds it also verifies.
* **`solveWith_verifies`**: whole searches, on every matrix that can be built.
-/

namespace ExactCover

open Search

namespace CoverOps

variable {σ μ : Type} [Puzzle σ μ] (k : CoverOps)

/-! ## Listing the leaves -/

/-- The leaves below the rows of a column, from `row` on. Where the search finds a solution, or has
run out of its budget, it does not go on to the next row. -/
def leavesAlong (p : σ) (below : List μ → Progress → Except Fault (Answer μ))
    (leaves : List μ → Progress → Except Fault (List (List μ))) (header : NodeId)
    (chosen : List μ) : Nat → NodeId → Progress → Except Fault (List (List μ))
  | 0, _, _ => .error (.openRing header)
  | fuel + 1, row, ⟨matrix, explored, aborted⟩ => do
    if row = header ∨ aborted then return []
    else
      match ← Puzzle.ofRow? p matrix row with
      | none =>
        let row' := (← matrix.mesh.node row).down
        leavesAlong p below leaves header chosen fuel row' ⟨matrix, explored, aborted⟩
      | some move =>
        let (matrix, touched) ← k.coverRow row matrix
        let here ← leaves (chosen ++ [move]) ⟨matrix, explored + touched, aborted⟩
        let (⟨matrix, explored, aborted⟩, found) ←
          below (chosen ++ [move]) ⟨matrix, explored + touched, aborted⟩
        let matrix ← k.uncoverRow row matrix
        match found with
        | some _ => return here
        | none =>
          let row' := (← matrix.mesh.node row).down
          let later ← leavesAlong p below leaves header chosen fuel row' ⟨matrix, explored, aborted⟩
          return here ++ later

/-- The leaves below the moves chosen so far. Where no column is left, these moves are one. -/
def leavesBelow (p : σ) (o : Options) : Nat → List μ → Progress → Except Fault (List (List μ))
  | depth, chosen, ⟨matrix, explored, aborted⟩ => do
    if isOverBudget o explored then return []
    else
      match ← o.branching.choose matrix with
      | none => return [chosen]
      | some c =>
        match depth with
        | 0 => throw .tooDeep
        | depth + 1 =>
          let header := (← matrix.column c).header
          let (matrix, touched) ← k.cover c matrix
          let top := (← matrix.mesh.node header).down
          let bound := k.steps matrix
          k.leavesAlong p (k.descend p o depth) (leavesBelow p o depth) header chosen bound top
            ⟨matrix, explored + touched, aborted⟩

/-- The complete covers that a search comes to, in order, each as the moves of its rows. -/
def leaves [Move μ] (p : σ) (o : Options) (m : Matrix) : Except Fault (List (List μ)) := do
  let ⟨matrix, _, _⟩ ← k.precover ((Puzzle.initial p).flatMap Move.keys) m
  let depth := k.depth o matrix (← matrix.live).length
  k.leavesBelow p o depth [] ⟨matrix, 0, false⟩

/-! ## The first leaf that is accepted -/

variable {k} {p : σ} {o : Options}

/-- Whether what a search found is the first accepted one of these leaves. -/
def FindsFirst (p : σ) (leaves : Except Fault (List (List μ))) (found : Option (List μ)) : Prop :=
  ∃ covers, leaves = .ok covers ∧ found = covers.find? (Puzzle.isSolvedBy p)

/-- **The loop over the rows of a column**, where this is so below each row. Induction on the steps
that the loop may take. -/
theorem tryRows_leaves {below : List μ → Progress → Except Fault (Answer μ)}
    {leaves : List μ → Progress → Except Fault (List (List μ))} {header : NodeId} {chosen : List μ}
    (hbelow : ∀ {chosen progress after found}, below chosen progress = .ok (after, found) →
      FindsFirst p (leaves chosen progress) found)
    {fuel : Nat} {row : NodeId} {progress after : Progress} {found : Option (List μ)}
    (h : k.tryRows p below header chosen fuel row progress = .ok (after, found)) :
    FindsFirst p (k.leavesAlong p below leaves header chosen fuel row progress) found := by
  induction fuel generalizing row progress with
  | zero => cases h
  | succ fuel ih =>
    obtain ⟨matrix, explored, aborted⟩ := progress
    unfold tryRows at h
    unfold leavesAlong
    by_cases hend : row = header ∨ aborted = true
    · rw [if_pos hend] at h ⊢
      cases h
      exact ⟨[], rfl, rfl⟩
    · rw [if_neg hend] at h ⊢
      obtain ⟨read, hread, h⟩ := bind_eq_ok.mp h
      rw [hread]
      cases read with
      | none =>
        obtain ⟨n, hn, h⟩ := bind_eq_ok.mp h
        obtain ⟨covers, hcovers, hfirst⟩ := ih h
        refine ⟨covers, ?_, hfirst⟩
        simp only [ok_bind, hn, hcovers]
      | some move =>
        obtain ⟨⟨m₁, touched⟩, hcover, h⟩ := bind_eq_ok.mp h
        obtain ⟨⟨⟨m₂, explored', aborted'⟩, found'⟩, hsearch, h⟩ := bind_eq_ok.mp h
        obtain ⟨m₃, huncover, h⟩ := bind_eq_ok.mp h
        obtain ⟨here, hhere, hfirst⟩ := hbelow hsearch
        cases found' with
        | some moves =>
          cases h
          refine ⟨here, ?_, hfirst⟩
          simp only [ok_bind, hcover, hhere, hsearch, huncover, pure_eq_ok]
        | none =>
          obtain ⟨n, hn, h⟩ := bind_eq_ok.mp h
          obtain ⟨later, hlater, hfirst'⟩ := ih h
          refine ⟨here ++ later, ?_, ?_⟩
          · simp only [ok_bind, hcover, hhere, hsearch, huncover, hn, hlater, pure_eq_ok]
          · -- none of the leaves below this row is accepted
            rw [List.find?_append, ← hfirst, hfirst']
            rfl

theorem accept_eq_find? (chosen : List μ) :
    accept p chosen = [chosen].find? (Puzzle.isSolvedBy p) := by
  unfold accept
  cases hsolved : Puzzle.isSolvedBy p chosen <;> simp [hsolved]

/-- **The search below some moves finds the first leaf that the puzzle accepts.** By recursion on
the depth. -/
theorem descend_leaves {depth : Nat} {chosen : List μ} {progress after : Progress}
    {found : Option (List μ)} (h : k.descend p o depth chosen progress = .ok (after, found)) :
    FindsFirst p (k.leavesBelow p o depth chosen progress) found := by
  obtain ⟨matrix, explored, aborted⟩ := progress
  unfold descend at h
  unfold leavesBelow
  by_cases hover : isOverBudget o explored = true
  · rw [if_pos hover] at h ⊢
    cases h
    exact ⟨[], rfl, rfl⟩
  · rw [if_neg hover] at h ⊢
    obtain ⟨choice, hchoose, h⟩ := bind_eq_ok.mp h
    rw [hchoose]
    cases choice with
    | none =>
      -- no column is left
      cases h
      exact ⟨[chosen], rfl, accept_eq_find? chosen⟩
    | some c =>
      cases depth with
      | zero => cases h
      | succ depth =>
        obtain ⟨col, hcol, h⟩ := bind_eq_ok.mp h
        obtain ⟨⟨m₁, touched⟩, hcover, h⟩ := bind_eq_ok.mp h
        obtain ⟨n, hn, h⟩ := bind_eq_ok.mp h
        obtain ⟨⟨⟨m₂, explored', aborted'⟩, found'⟩, hrows, h⟩ := bind_eq_ok.mp h
        obtain ⟨m₃, huncover, h⟩ := bind_eq_ok.mp h
        cases h
        have hbelow : ∀ {chosen progress after found},
            k.descend p o depth chosen progress = .ok (after, found) →
              FindsFirst p (k.leavesBelow p o depth chosen progress) found :=
          fun hsearch => descend_leaves hsearch
        obtain ⟨covers, hcovers, hfirst⟩ := tryRows_leaves hbelow hrows
        refine ⟨covers, ?_, hfirst⟩
        simp only [ok_bind, hcol, hcover, hn, hcovers]

/-- **A whole search finds the first of its leaves that the puzzle accepts.** -/
theorem solveWith_leaves [Move μ] {m : Matrix} {out : Outcome μ}
    (h : k.solveWith p o m = .ok out) :
    ∃ found, FindsFirst p (k.leaves p o m) found ∧ out.moves = found.getD [] ∧
      out.tally.solved = found.isSome := by
  unfold solveWith at h
  obtain ⟨⟨columns, nodes⟩, -, h⟩ := bind_eq_ok.mp h
  obtain ⟨⟨matrix, covered, skipped⟩, hprecover, h⟩ := bind_eq_ok.mp h
  obtain ⟨live, hlive, h⟩ := bind_eq_ok.mp h
  obtain ⟨⟨after, found⟩, hsearch, h⟩ := bind_eq_ok.mp h
  obtain ⟨m', -, h⟩ := bind_eq_ok.mp h
  cases h
  obtain ⟨covers, hcovers, hfirst⟩ := descend_leaves hsearch
  refine ⟨found, ⟨covers, ?_, hfirst⟩, rfl, rfl⟩
  simp only [leaves, hprecover, ok_bind, hlive, hcovers]

/-- What counts as a solution is replayed by the puzzle, and solves it. -/
theorem isSolvedBy_of_solved [Move μ] {m : Matrix} {out : Outcome μ}
    (h : k.solveWith p o m = .ok out) (hsolved : out.tally.solved = true) :
    Puzzle.isSolvedBy p out.moves = true := by
  obtain ⟨found, ⟨covers, -, hfirst⟩, hmoves, hfound⟩ := solveWith_leaves h
  rw [hfound] at hsolved
  obtain ⟨moves, rfl⟩ := Option.isSome_iff_exists.mp hsolved
  rw [hmoves]
  exact List.find?_some hfirst.symm

end CoverOps

/-- The complete covers that a search on a matrix comes to, in order. -/
def Search.leaves {σ μ : Type} [Move μ] [Puzzle σ μ] (p : σ) (o : Options) (m : Matrix) :
    Except Fault (List (List μ)) :=
  CoverOps.listed.leaves p o m

/-! ## Verification -/

/-- **No report fails.** The matrix that the puzzle describes can be built and searched, and a
solution that is to be verified passes. -/
theorem Command.report_verifies (settings : Command.Settings) (label : String) (p : AnyPuzzle) :
    (Command.report settings label p).2 = none := by
  obtain ⟨out, hsolve, -⟩ :=
    Puzzle.solve_report p { branching := settings.branching, budget := settings.budget }
  have hverified : out.tally.solved = true → Puzzle.isSolvedBy p out.moves = true := by
    obtain ⟨m, -, hrun⟩ := bind_eq_ok.mp hsolve
    exact CoverOps.isSolvedBy_of_solved hrun
  unfold Command.report
  simp only [hsolve]
  unfold Command.outcomeLines
  have hpass : ¬ (settings.verify ∧ out.tally.solved ∧ !Puzzle.isSolvedBy p out.moves) := by
    rintro ⟨-, hsolved, hfails⟩
    rw [hverified hsolved] at hfails
    cases hfails
  dsimp only
  rw [if_neg hpass]

/-! ## Every matrix -/

/-- A search that found a solution has not run out of its budget. -/
theorem AlgorithmX.not_found_and_aborted {σ μ : Type} [Move μ] [Puzzle σ μ] (t : Table) (p : σ)
    (o : Search.Options) :
    ¬ ((report t p o).found.isSome = true ∧ (report t p o).aborted = true) := by
  unfold report
  refine descend_induction (P := fun report => ¬ (report.found.isSome = true ∧
    report.aborted = true)) ?_ ?_ ?_ <;> simp

/-- **A search reports what the puzzle itself accepts.** On every matrix that can be built, also on
one that has nothing to do with the puzzle, for either rule of branching and every budget, a search
reports a solution exactly if the puzzle accepts one of the complete covers that the search comes
to. The solution is one of these, the first that is accepted: the puzzle accepts its moves one after
the other, and is solved after them. A search that reports none has no moves, and one that ran out
of its budget reports none. So the program never reports anything that it cannot verify. -/
theorem solveWith_verifies {σ μ : Type} [Move μ] [Puzzle σ μ] (additions : List Addition) (p : σ)
    (o : Search.Options) :
    ∃ m out covers, Matrix.build additions = .ok m ∧ Search.solveWith p o m = .ok out ∧
      Search.leaves p o m = .ok covers ∧
      (out.tally.solved = true ↔ ∃ moves ∈ covers, Puzzle.isSolvedBy p moves = true) ∧
      (out.tally.solved = true → covers.find? (Puzzle.isSolvedBy p) = some out.moves ∧
        ∃ q, Puzzle.replay? p out.moves = some q ∧ Puzzle.isSolved q = true) ∧
      (out.tally.solved = false → out.moves = []) ∧
      ¬ (out.tally.solved = true ∧ out.tally.aborted = true) ∧
      ∀ settings label puzzle, (Command.report settings label puzzle).2 = none := by
  obtain ⟨L, m, hbuild, hm, -⟩ := Represents.build additions
  have hrun := solveWith_eq hm p o
  obtain ⟨found, ⟨covers, hcovers, hfirst⟩, hmoves, hfound⟩ := CoverOps.solveWith_leaves hrun
  refine ⟨m, _, covers, hbuild, hrun, hcovers, ?_, fun hsolved => ⟨?_, ?_⟩, fun hunsolved => ?_,
    AlgorithmX.not_found_and_aborted L.table p o, Command.report_verifies⟩
  · rw [hfound, hfirst, List.find?_isSome]
  · rw [hfound] at hsolved
    obtain ⟨moves, rfl⟩ := Option.isSome_iff_exists.mp hsolved
    rw [hmoves, ← hfirst]
    rfl
  · exact (Option.any_eq_true _ _).mp (CoverOps.isSolvedBy_of_solved hrun hsolved)
  · rw [hfound, Option.isSome_eq_false_iff, Option.isNone_iff_eq_none] at hunsolved
    rw [hmoves, hunsolved]
    rfl

/-- A matrix that is not the puzzle's own: the first complete cover is one row, which is no subset
of the family, and the second one is two rows, which are. -/
theorem solveWith_verifies_second :
    ∃ m out covers, Matrix.build [.column "a", .column "b", .row ["a", "b"], .row ["a"],
        .row ["b"]] = .ok m ∧
      Search.solveWith
        (⟨[("a", false), ("b", false)], [⟨"x", ["a"]⟩, ⟨"y", ["b"]⟩], []⟩ : Family) {} m = .ok out ∧
      Search.leaves
        (⟨[("a", false), ("b", false)], [⟨"x", ["a"]⟩, ⟨"y", ["b"]⟩], []⟩ : Family) {} m =
        .ok covers ∧
      covers.length = 2 ∧ out.tally.solved = true ∧
      ∃ q, Puzzle.replay?
        (⟨[("a", false), ("b", false)], [⟨"x", ["a"]⟩, ⟨"y", ["b"]⟩], []⟩ : Family) out.moves =
        some q ∧ Puzzle.isSolved q = true := by
  let f : Family := ⟨[("a", false), ("b", false)], [⟨"x", ["a"]⟩, ⟨"y", ["b"]⟩], []⟩
  obtain ⟨m, out, covers, hbuild, hrun, hcovers, -, hsolution, -, -, -⟩ := solveWith_verifies
    [.column "a", .column "b", .row ["a", "b"], .row ["a"], .row ["b"]] f {}
  have hruns : (Search.solveWith f {} m).toOption.map (·.tally.solved) = some true ∧
      (Search.leaves f {} m).toOption.map (·.length) = some 2 := by
    cases hbuild
    decide +kernel
  rw [hrun, hcovers] at hruns
  have hsolved : out.tally.solved = true := Option.some.inj hruns.1
  exact ⟨m, out, covers, hbuild, hrun, hcovers, Option.some.inj hruns.2, hsolved,
    (hsolution hsolved).2⟩

end ExactCover
