import ExactCover.Search.Basic
import ExactCover.Proofs.Table
import Mathlib.Data.List.MinMax

/-!
# Algorithm X on plain tables

The search as it would be written without links: a table that never changes, and the list of the
columns covered so far. Nothing is put back, since nothing was taken away.

* **`AlgorithmX.precover`**: the columns that the initial keys cover.
* **`AlgorithmX.choose`**: the column to branch on.
* **`AlgorithmX.isOver`, `AlgorithmX.solves`**: when the budget has run out, and what counts as a
  solution. The search on links asks the same (`isOverBudget_eq`, `accept_eq`).
* **`AlgorithmX.descend`**: the search below the moves chosen so far. It ends because every level
  covers a live column.
* **`AlgorithmX.solve`**: a whole search, with its tally.
* **`AlgorithmX.report`**: what it reports.
-/

namespace ExactCover

namespace AlgorithmX

variable {σ μ : Type} [Puzzle σ μ]

/-- What a search below some point answers: the count so far, whether the budget ran out, and the
moves of a solution. -/
structure Report (μ : Type) where
  explored : Nat
  aborted : Bool
  found : Option (List μ)

/-- Covers the first live column with this key; a key that no live column has is counted. -/
def precoverKey (t : Table) : List ColumnId × Nat → String → List ColumnId × Nat
  | (covered, skipped), key =>
    match t.find? covered key with
    | some c => (c :: covered, skipped)
    | none => (covered, skipped + 1)

/-- Covers the columns of all keys, in order. The columns covered last come first. -/
def precover (t : Table) (covered : List ColumnId) (keys : List String) : List ColumnId × Nat :=
  keys.foldl (precoverKey t) (covered, 0)

/-- The live column to branch on: the first one, or the first of those with the fewest rows. -/
def choose (b : Branching) (t : Table) (covered : List ColumnId) : Option ColumnId :=
  match b with
  | .firstColumn => (t.live covered).head?
  | .fewestRows => (t.live covered).argmin fun c => (t.through covered c).length

/-- Tries rows in order. The keys of a row are read from `c` round to `c` again; a row that is no
move is passed over. Below a move the other columns of its row are covered as well. -/
def tryRows (t : Table) (p : σ) (below : List ColumnId → List μ → Nat → Report μ) (c : ColumnId)
    (covered : List ColumnId) (chosen : List μ) : List (List ColumnId) → Nat → Report μ
  | [], explored => ⟨explored, false, none⟩
  | row :: rows, explored =>
    let others := roundFrom (· == c) row
    match Puzzle.ofKeys? p ((c :: others).map t.key) with
    | none => tryRows t p below c covered chosen rows explored
    | some move =>
      let report := below others (chosen ++ [move]) (explored + t.costAll covered others)
      if report.aborted ∨ report.found.isSome then report
      else tryRows t p below c covered chosen rows report.explored

/-- Whether a budget has run out. Without one it never does. -/
def isOver : Option Nat → Nat → Bool
  | none, _ => false
  | some most, explored => most < explored

/-- Whether the rules accept these moves one after the other, and the puzzle is solved then. -/
def solves (p : σ) : List μ → Bool
  | [] => Puzzle.isSolved p
  | move :: moves =>
    match Puzzle.play? p move with
    | none => false
    | some q => solves q moves

theorem choose_mem {b : Branching} {t : Table} {covered : List ColumnId} {c : ColumnId}
    (h : choose b t covered = some c) : c ∈ t.live covered := by
  cases b with
  | fewestRows => exact List.argmin_mem h
  | firstColumn => exact List.mem_of_head? h

theorem choose_eq_none {b : Branching} {t : Table} {covered : List ColumnId} :
    choose b t covered = none ↔ t.live covered = [] := by
  cases b with
  | fewestRows => exact List.argmin_eq_none
  | firstColumn => exact List.head?_eq_none_iff

/-- Searches below the moves chosen so far. -/
def descend (t : Table) (p : σ) (o : Search.Options) (covered : List ColumnId) (chosen : List μ)
    (explored : Nat) : Report μ :=
  if isOver o.budget explored then ⟨explored, true, none⟩
  else
    match _hc : choose o.branching t covered with
    | none => ⟨explored, false, if solves p chosen then some chosen else none⟩
    | some c =>
      tryRows t p (fun others => descend t p o (others.reverse ++ c :: covered)) c (c :: covered)
        chosen (t.through covered c) (explored + t.cost covered c)
termination_by (t.live covered).length
decreasing_by
  exact Nat.lt_of_le_of_lt Table.length_live_append_le (Table.length_live_cons_lt (choose_mem _hc))

/-- A whole search, where the columns `covered` are gone from the start. -/
def solve [Move μ] (t : Table) (covered : List ColumnId) (p : σ) (o : Search.Options) :
    List μ × Tally :=
  let (columns, nodes) := t.extent covered
  let initial := Puzzle.initial p
  let (covered, skipped) := precover t covered (initial.flatMap Move.keys)
  let report := descend t p o covered [] 0
  (report.found.getD [],
    { extent := columns + nodes
      initial := initial.length
      explored := report.explored
      skipped
      aborted := report.aborted
      solved := report.found.isSome })

/-- What a whole search reports, where no column is gone from the start. -/
def report [Move μ] (t : Table) (p : σ) (o : Search.Options) : Report μ :=
  descend t p o (precover t [] ((Puzzle.initial p).flatMap Move.keys)).1 [] 0

/-- A search is its report, together with counts that do not depend on the budget. -/
theorem solve_congr [Move μ] {t : Table} {p : σ} {o o' : Search.Options}
    (h : report t p o = report t p o') : solve t [] p o = solve t [] p o' := by
  unfold report at h
  simp only [solve, h]

/-! ## What the search on links asks -/

theorem isOverBudget_eq (o : Search.Options) (explored : Nat) :
    Search.isOverBudget o explored = isOver o.budget explored := by
  unfold Search.isOverBudget
  cases o.budget with
  | none => rfl
  | some most => rfl

/-- A replay that ends solved is one that the puzzle accepts move by move. -/
theorem solves_eq (p : σ) (moves : List μ) : solves p moves = Puzzle.isSolvedBy p moves := by
  induction moves generalizing p with
  | nil => rfl
  | cons move moves ih =>
    simp only [Puzzle.isSolvedBy, Puzzle.replay?, List.foldlM_cons] at ih ⊢
    rw [solves]
    cases Puzzle.play? p move with
    | none => rfl
    | some q => exact ih q

theorem accept_eq (p : σ) (moves : List μ) :
    Search.accept p moves = if solves p moves then some moves else none := by
  rw [Search.accept, solves_eq]

/-! ## One level at a time -/

section

variable {t : Table} {p : σ} {o : Search.Options} {covered : List ColumnId} {chosen : List μ}
  {explored : Nat} {c : ColumnId}

theorem descend_of_over (h : isOver o.budget explored = true) :
    descend t p o covered chosen explored = ⟨explored, true, none⟩ := by
  rw [descend, if_pos h]

theorem descend_of_none (h : isOver o.budget explored = false)
    (hc : choose o.branching t covered = none) :
    descend t p o covered chosen explored =
      ⟨explored, false, if solves p chosen then some chosen else none⟩ := by
  rw [descend, if_neg (by simp [h])]
  split
  · rfl
  · simp_all

theorem descend_of_some (h : isOver o.budget explored = false)
    (hc : choose o.branching t covered = some c) :
    descend t p o covered chosen explored =
      tryRows t p (fun others => descend t p o (others.reverse ++ c :: covered)) c (c :: covered)
        chosen (t.through covered c) (explored + t.cost covered c) := by
  rw [descend, if_neg (by simp [h])]
  split
  · simp_all
  · simp_all

end

end AlgorithmX

end ExactCover
