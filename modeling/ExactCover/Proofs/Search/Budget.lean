import ExactCover.Family.Basic
import ExactCover.Proofs.Search.Exhaustive
import ExactCover.Proofs.Search.Refinement

/-!
# What a budget changes

A search looks at its budget when it enters a level, and nowhere else. So two runs that differ in
their budgets alone go side by side until the smaller budget has run out, and from there on one of
them only comes back up through its levels while the other one goes on counting. Since the count
never falls, the run that stopped early is nowhere ahead of the other one.

* **`Search.IsWithin`**: the order on budgets, where no budget is the largest one.
* **`AlgorithmX.le_explored_descend`**: the count never falls.
* **`AlgorithmX.Truncates`**: what the report of the one run is to the report of the other.
* **`AlgorithmX.tryRows_truncates`, `AlgorithmX.descend_truncates`**: the two runs of a loop over
  rows, and of a search below some moves.
* **`solveWith_truncates`**: whole searches, on every matrix that can be built.
-/

namespace ExactCover

/-! ## Budgets -/

namespace Search

/-- Whether the first budget allows no more than the second one. -/
def IsWithin (budget budget' : Option Nat) : Prop := ∀ n' ∈ budget', ∃ n ∈ budget, n ≤ n'

theorem IsWithin.none_right (budget : Option Nat) : IsWithin budget none := by
  intro n' h
  cases h

end Search

namespace AlgorithmX

variable {σ μ : Type} [Puzzle σ μ] {t : Table} {p : σ} {o : Search.Options} {c : ColumnId}
  {covered : List ColumnId} {chosen : List μ} {explored : Nat}

/-! ## When a budget has run out -/

/-- A budget has run out where there is one and more was explored. -/
theorem isOver_iff {budget : Option Nat} :
    isOver budget explored = true ↔ ∃ most, budget = some most ∧ most < explored := by
  cases budget with
  | none => simp [isOver]
  | some most => simp [isOver]

/-- What is over the larger budget is over the smaller one. -/
theorem isOver_of_isWithin {budget budget' : Option Nat} (h : Search.IsWithin budget budget')
    (hover : isOver budget' explored = true) : isOver budget explored = true := by
  obtain ⟨n', hn', hlt⟩ := isOver_iff.mp hover
  obtain ⟨n, hn, hle⟩ := h n' hn'
  exact isOver_iff.mpr ⟨n, hn, Nat.lt_of_le_of_lt hle hlt⟩

/-! ## The count -/

/-- A loop over rows does not lower the count if the search below a row does not. -/
theorem le_explored_tryRows {below : List ColumnId → List μ → Nat → Report μ}
    (hbelow : ∀ others chosen explored, explored ≤ (below others chosen explored).explored)
    (rows : List (List ColumnId)) :
    explored ≤ (tryRows t p below c covered chosen rows explored).explored := by
  induction rows generalizing explored with
  | nil => exact Nat.le_refl _
  | cons row rows ih =>
    rw [tryRows]
    split
    · exact ih
    · have hbelow' := hbelow (roundFrom (· == c) row)
      dsimp only
      split_ifs
      · exact Nat.le_trans (Nat.le_add_right _ _) (hbelow' _ _)
      · exact Nat.le_trans (Nat.le_add_right _ _) (Nat.le_trans (hbelow' _ _) ih)

/-- **The count never falls.** Induction on the number of live columns. -/
theorem le_explored_descend : explored ≤ (descend t p o covered chosen explored).explored := by
  induction hlive : (t.live covered).length using Nat.strong_induction_on
    generalizing covered chosen explored with
  | h n ih =>
    subst hlive
    cases hover : isOver o.budget explored with
    | true =>
      rw [descend_of_over hover]
    | false =>
      cases hchoose : choose o.branching t covered with
      | none =>
        rw [descend_of_none hover hchoose]
      | some c =>
        rw [descend_of_some hover hchoose]
        refine Nat.le_trans (Nat.le_add_right _ _) (le_explored_tryRows ?_ _)
        intro others chosen explored
        exact ih _ (Nat.lt_of_le_of_lt Table.length_live_append_le
          (Table.length_live_cons_lt (choose_mem hchoose))) rfl

/-! ## Two runs side by side -/

/-- **The report of a run with the budget of `o`, beside that of a run with a larger one.** If it
was not aborted, the larger budget made no difference. If it was, then it has found nothing, it is
over its budget, and the other run has counted as far and maybe farther. -/
structure Truncates (o : Search.Options) (report report' : Report μ) : Prop where
  same : report.aborted = false → report' = report
  found : report.aborted = true → report.found = none
  isOver : report.aborted = true → isOver o.budget report.explored = true
  explored_le : report.explored ≤ report'.explored

theorem Truncates.refl {report : Report μ} (h : report.aborted = false) :
    Truncates o report report := by
  refine ⟨fun _ => rfl, ?_, ?_, Nat.le_refl _⟩
  · intro haborted
    rw [h] at haborted
    cases haborted
  · intro haborted
    rw [h] at haborted
    cases haborted

/-- A loop over rows is truncated where the search below one of them is. Induction on the rows: up
to that row both loops are at the same count. -/
theorem tryRows_truncates {below below' : List ColumnId → List μ → Nat → Report μ}
    (hbelow : ∀ others chosen explored,
      Truncates o (below others chosen explored) (below' others chosen explored))
    (hcount : ∀ others chosen explored, explored ≤ (below' others chosen explored).explored)
    (rows : List (List ColumnId)) :
    Truncates o (tryRows t p below c covered chosen rows explored)
      (tryRows t p below' c covered chosen rows explored) := by
  induction rows generalizing explored with
  | nil => exact Truncates.refl rfl
  | cons row rows ih =>
    rw [tryRows, tryRows]
    cases Puzzle.ofKeys? p ((c :: roundFrom (· == c) row).map t.key) with
    | none => exact ih
    | some move =>
      dsimp only
      have htruncates := hbelow (roundFrom (· == c) row) (chosen ++ [move])
        (explored + t.costAll covered (roundFrom (· == c) row))
      generalize below (roundFrom (· == c) row) (chosen ++ [move])
        (explored + t.costAll covered (roundFrom (· == c) row)) = report at htruncates ⊢
      generalize below' (roundFrom (· == c) row) (chosen ++ [move])
        (explored + t.costAll covered (roundFrom (· == c) row)) = report' at htruncates ⊢
      cases haborted : report.aborted with
      | true =>
        -- the one loop ends here, and the other one can only count on
        rw [if_pos (Or.inl rfl)]
        have hle : report.explored ≤
            (if report'.aborted = true ∨ report'.found.isSome = true then report'
              else tryRows t p below' c covered chosen rows report'.explored).explored := by
          split_ifs
          · exact htruncates.explored_le
          · exact Nat.le_trans htruncates.explored_le (le_explored_tryRows hcount rows)
        exact ⟨fun hfinished => absurd (haborted.symm.trans hfinished) (by decide),
          htruncates.found, htruncates.isOver, hle⟩
      | false =>
        obtain rfl := htruncates.same haborted
        by_cases hfound : report'.found.isSome = true
        · rw [if_pos (Or.inr hfound), if_pos (Or.inr hfound)]
          exact Truncates.refl haborted
        · rw [haborted, if_neg (by simp [hfound]), if_neg (by simp [hfound])]
          exact ih

/-- **A smaller budget only truncates a search.** Induction on the number of live columns. -/
theorem descend_truncates {b : Branching} {budget budget' : Option Nat}
    (h : Search.IsWithin budget budget') :
    Truncates ⟨b, budget⟩ (descend t p ⟨b, budget⟩ covered chosen explored)
      (descend t p ⟨b, budget'⟩ covered chosen explored) := by
  induction hlive : (t.live covered).length using Nat.strong_induction_on
    generalizing covered chosen explored with
  | h n ih =>
    subst hlive
    cases hover : isOver budget explored with
    | true =>
      rw [descend_of_over hover]
      refine ⟨?_, fun _ => rfl, fun _ => hover, le_explored_descend⟩
      intro hfinished
      cases hfinished
    | false =>
      have hover' : isOver budget' explored = false := by
        rw [Bool.eq_false_iff]
        intro hover'
        rw [isOver_of_isWithin h hover'] at hover
        cases hover
      cases hchoose : choose b t covered with
      | none =>
        rw [descend_of_none hover hchoose, descend_of_none hover' hchoose]
        exact Truncates.refl rfl
      | some c =>
        rw [descend_of_some hover hchoose, descend_of_some hover' hchoose]
        apply tryRows_truncates
        · intro others chosen explored
          exact ih _ (Nat.lt_of_le_of_lt Table.length_live_append_le
            (Table.length_live_cons_lt (choose_mem hchoose))) rfl
        · intro others chosen explored
          exact le_explored_descend

variable [Move μ]

theorem report_truncates (t : Table) (p : σ) (b : Branching) {budget budget' : Option Nat}
    (h : Search.IsWithin budget budget') :
    Truncates ⟨b, budget⟩ (report t p ⟨b, budget⟩) (report t p ⟨b, budget'⟩) :=
  descend_truncates h

/-- **A budget that is at least what the run without one explores makes no difference.** If it ran
out, the count would be over it, and the run without a budget would have counted farther still. -/
theorem report_of_explored_le {b : Branching} {n : Nat}
    (h : (report t p ⟨b, none⟩).explored ≤ n) : report t p ⟨b, none⟩ = report t p ⟨b, some n⟩ := by
  have htruncates := report_truncates t p b (Search.IsWithin.none_right (some n))
  refine htruncates.same (Bool.eq_false_iff.mpr ?_)
  intro haborted
  obtain ⟨n', hn', hlt⟩ := isOver_iff.mp (htruncates.isOver haborted)
  obtain rfl : n = n' := Option.some.inj hn'
  have hle := htruncates.explored_le
  omega

end AlgorithmX

/-! ## Whole searches -/

section

variable {σ μ : Type} [Move μ] [Puzzle σ μ]

/-- **A budget only truncates.** Take two runs on a matrix that can be built, which differ in their
budgets alone. If the one with the smaller budget is not aborted, both end with the same moves, the
same tally and the same matrix. If it is, then it ends without moves and unsolved, has explored more
than its budget, and has explored no more than the other run. And no budget that is at least what
the run without one explores makes any difference. -/
theorem solveWith_truncates (additions : List Addition) (p : σ) (b : Branching) :
    ∃ m, Matrix.build additions = .ok m ∧
      (∀ budget budget', Search.IsWithin budget budget' →
        ∃ out out', Search.solveWith p ⟨b, budget⟩ m = .ok out ∧
          Search.solveWith p ⟨b, budget'⟩ m = .ok out' ∧
          (out.tally.aborted = false → out' = out) ∧
          (out.tally.aborted = true →
            out.moves = [] ∧ out.tally.solved = false ∧
              (∃ n, budget = some n ∧ n < out.tally.explored) ∧
              out.tally.explored ≤ out'.tally.explored)) ∧
      ∃ out, Search.solveWith p ⟨b, none⟩ m = .ok out ∧ out.tally.aborted = false ∧
        ∀ n, out.tally.explored ≤ n → Search.solveWith p ⟨b, some n⟩ m = .ok out := by
  obtain ⟨L, m, hbuild, hm, -⟩ := Represents.build additions
  refine ⟨m, hbuild, fun budget budget' hwithin => ?_, ?_⟩
  · have htruncates := AlgorithmX.report_truncates L.table p b hwithin
    refine ⟨_, _, solveWith_eq hm p ⟨b, budget⟩, solveWith_eq hm p ⟨b, budget'⟩, ?_, ?_⟩
    · intro hfinished
      rw [AlgorithmX.solve_congr (htruncates.same hfinished)]
    · intro haborted
      have hfound := htruncates.found haborted
      unfold AlgorithmX.report at hfound
      refine ⟨?_, ?_, AlgorithmX.isOver_iff.mp (htruncates.isOver haborted),
        htruncates.explored_le⟩
      · simp [AlgorithmX.solve, hfound]
      · simp [AlgorithmX.solve, hfound]
  · refine ⟨_, solveWith_eq hm p ⟨b, none⟩, AlgorithmX.descend_unlimited rfl, fun n hn => ?_⟩
    rw [solveWith_eq hm p ⟨b, some n⟩,
      ← AlgorithmX.solve_congr (AlgorithmX.report_of_explored_le hn)]

/-- A budget of two is used up by the first row that is tried. Without a budget this row is found to
be a solution, and so it is with a budget of just what that search explores. -/
theorem solveWith_truncates_two :
    ∃ m out out', Matrix.build [.column "a", .column "b", .row ["a"], .row ["a", "b"]] = .ok m ∧
      Search.IsWithin (some 2) none ∧
      Search.solveWith
        (⟨[("a", false), ("b", false)], [⟨"x", ["a"]⟩, ⟨"y", ["a", "b"]⟩], []⟩ : Family)
        ⟨.fewestRows, some 2⟩ m = .ok out ∧
      Search.solveWith
        (⟨[("a", false), ("b", false)], [⟨"x", ["a"]⟩, ⟨"y", ["a", "b"]⟩], []⟩ : Family)
        ⟨.fewestRows, none⟩ m = .ok out' ∧
      out.tally.aborted = true ∧ out.moves = [] ∧ 2 < out.tally.explored ∧
      out.tally.explored ≤ out'.tally.explored ∧ out'.tally.solved = true ∧
      Search.solveWith
        (⟨[("a", false), ("b", false)], [⟨"x", ["a"]⟩, ⟨"y", ["a", "b"]⟩], []⟩ : Family)
        ⟨.fewestRows, some out'.tally.explored⟩ m = .ok out' := by
  let f : Family := ⟨[("a", false), ("b", false)], [⟨"x", ["a"]⟩, ⟨"y", ["a", "b"]⟩], []⟩
  obtain ⟨m, hbuild, hpair, full, hfull, -, hlarge⟩ := solveWith_truncates
    [.column "a", .column "b", .row ["a"], .row ["a", "b"]] f .fewestRows
  have hruns : (Search.solveWith f ⟨.fewestRows, some 2⟩ m).toOption.map (·.tally.aborted) =
      some true ∧
      (Search.solveWith f ⟨.fewestRows, none⟩ m).toOption.map (·.tally.solved) = some true := by
    cases hbuild
    decide +kernel
  have hwithin := Search.IsWithin.none_right (some 2)
  obtain ⟨out, out', hout, hout', -, hcut⟩ := hpair (some 2) none hwithin
  rw [hout, hout'] at hruns
  obtain ⟨haborted, hsolved⟩ := And.intro (Option.some.inj hruns.1) (Option.some.inj hruns.2)
  obtain ⟨hmoves, -, ⟨n, hn, hlt⟩, hle⟩ := hcut haborted
  obtain rfl : full = out' := Except.ok.inj (hfull.symm.trans hout')
  obtain rfl : 2 = n := Option.some.inj hn
  exact ⟨m, out, full, hbuild, hwithin, hout, hout', haborted, hmoves, hlt, hle, hsolved,
    hlarge _ (Nat.le_refl _)⟩

end

end ExactCover
