import ExactCover.Proofs.Family.Decides
import ExactCover.Proofs.Sudoku.Decides

/-!
# Solving after moves were played

A search can be started on any state, also after some moves. What it covers beforehand are the
initial moves of the state, and what it replays starts from the state itself.

A board shows all that was played: its initial moves are the numbers on it. So a search goes on from
there, and it finds a solution exactly if there is a way to go on. On a solved board there is
nothing to add.

The initial moves of a family are its fixed subsets, whatever was chosen since. The items that were
covered by a choice are still to be covered in the matrix, but the rules refuse to cover them again.
So after any choice no search finds a solution, not even in a solved family.

* **`Sudoku.solve_played`**: boards.
* **`Family.solve_played`**: families whose fixed subsets share no item.
* **`solve_resumes`**: both together.
-/

namespace ExactCover

variable {o : Search.Options}

/-! ## Boards -/

namespace Sudoku

variable {s t : Sudoku} {moves : List Placement}

theorem Completion.covering (h : Completion s t) : Puzzle.Covering s s.row (s.fills t) where
  cover := h.isExactCover
  reads p hp c hc := by
    obtain ⟨hposition, -, hvalue, hsize⟩ := mem_fills.mp hp
    have hvalid : p.isValid = true := by
      rw [Placement.valid_iff, hsize, hvalue]
      exact ⟨hposition, h.value_range hposition⟩
    exact ofKeys?_row hvalid hsize hc
  accepted _ hplayed := h.replay hplayed

theorem Played.eq_nil_of_isSolved (h : Played s moves t) (hsolved : s.isSolved = true) :
    moves = [] := by
  refine List.eq_nil_iff_forall_not_mem.mpr fun move hmove => ?_
  obtain ⟨-, hposition, hempty⟩ := h.fills move hmove
  have hfull : s.isFull = true := (Bool.and_eq_true _ _ ▸ hsolved).1
  have hfilled := List.all_eq_true.mp hfull _ (mem_positions.mpr hposition)
  simp [hempty] at hfilled

/-- **A search goes on from the board that it is given.** After any accepted moves, a search without
a budget finds a solution if and only if some further moves are accepted and solve the board. On a
solved board it plays nothing. -/
theorem solve_played {g : Grid} (h : ofGrid g = .ok s) (hreplay : Puzzle.replay? s moves = some t)
    (hbudget : o.budget = none) :
    ∃ out, Search.solve t o = .ok out ∧
      (out.tally.solved = true ↔ ∃ further, Puzzle.isSolvedBy t further = true) ∧
      (t.isSolved = true → out.moves = []) := by
  have hrange := (played_of_replay hreplay).range (valueAt_le_of_ofGrid h)
  obtain ⟨out, hsolve, hyes, hno, hfinished⟩ := Puzzle.solve_spec t o
  have hfound : (∃ further, Puzzle.isSolvedBy t further = true) → out.tally.solved = true := by
    rintro ⟨further, hfurther⟩
    obtain ⟨u, hreplay', hdone⟩ := (Option.any_eq_true _ _).mp hfurther
    have hcompletion := completion_of_solved (played_of_replay hreplay') hrange hdone
    by_contra hunsolved
    exact hno (by simpa using hunsolved) (hfinished hbudget) _ _ hcompletion.covering
  refine ⟨out, hsolve, ⟨fun hsolved => ⟨_, (hyes hsolved).1⟩, hfound⟩, fun hdone => ?_⟩
  obtain ⟨u, hreplay', -⟩ := (Option.any_eq_true _ _).mp (hyes (hfound ⟨[], hdone⟩)).1
  exact (played_of_replay hreplay').eq_nil_of_isSolved hdone

end Sudoku

/-! ## Families -/

namespace Family

variable {f f' : Family} {d : Declaration} {chosen played : List Subset} {moves : List Choice}

theorem Declared.eq_nil_of_holders (h : f.Declared) (hmem : ∀ s ∈ chosen, s ∈ f.subsets)
    (hnone : ∀ item ∈ f.items, holders chosen item = 0) : chosen = [] := by
  refine List.eq_nil_iff_forall_not_mem.mpr fun s hs => ?_
  obtain ⟨item, hitem⟩ := List.exists_mem_of_ne_nil _ (h.ne_nil s (hmem s hs))
  have hzero := hnone item (h.mem_items (hmem s hs) hitem)
  have hpos := holders_pos.mpr ⟨s, hs, hitem⟩
  omega

/-- **What was chosen cannot be completed.** Its items are covered and not reserved, since only
fixed subsets are. -/
theorem Played.eq_nil_of_completes (h : ofDeclaration d = .ok f) (hunnoticed : f.Unnoticed)
    (hplayed : Played f played f') (hchosen : f'.Completes chosen) : played = [] := by
  obtain ⟨hdeclared, -, -⟩ := declared_of_ofDeclaration h
  refine hdeclared.eq_nil_of_holders hplayed.mem fun item hitem => ?_
  have hitem' : item ∈ f'.items := hplayed.items ▸ hitem
  have hreserved : f'.reserved item = f.marked item := by
    rw [← (unnoticed_iff h).mp hunnoticed item hitem, Family.reserved, Family.reserved,
      hplayed.fixed]
  have hone := hchosen.reserved item hitem'
  have hone' := hchosen.marked item hitem'
  rw [hreserved] at hone
  rw [hplayed.marked item hitem] at hone'
  omega

theorem Completes.eq_nil_of_isSolved (hchosen : f.Completes chosen) (h : f.Declared)
    (hsolved : f.isSolved = true) : chosen = [] := by
  refine h.eq_nil_of_holders hchosen.mem fun item hitem => ?_
  have hone := hchosen.marked item hitem
  rw [(isSolved_iff h.nodup_items).mp hsolved item hitem] at hone
  omega

theorem exists_completes (h : ofDeclaration d = .ok f) (hunnoticed : f.Unnoticed)
    (hsolved : Puzzle.isSolvedBy f moves = true) : ∃ chosen, f.Completes chosen := by
  obtain ⟨hdeclared, -, -⟩ := declared_of_ofDeclaration h
  obtain ⟨f', hreplay, hdone⟩ := (Option.any_eq_true _ _).mp hsolved
  obtain ⟨chosen, -, hplayed⟩ := played_of_replay hreplay
  have hone : ∀ item ∈ f.items, f.marked item + holders chosen item = 1 := fun item hitem => by
    rw [← hplayed.marked item hitem]
    exact (isSolved_iff (hplayed.declared hdeclared).nodup_items).mp hdone item
      (hplayed.items ▸ hitem)
  exact ⟨chosen, hplayed.mem,
    fun item hitem => by rw [(unnoticed_iff h).mp hunnoticed item hitem]; exact hone item hitem,
    hone⟩

/-- **A search does not go on from what was chosen.** Where the fixed subsets share no item, a
search without a budget finds a solution if and only if nothing was chosen since and some choices
solve the family. -/
theorem solve_played (h : ofDeclaration d = .ok f) (hfixed : f.fixed.Pairwise Subset.Apart)
    (hreplay : Puzzle.replay? f moves = some f') (hbudget : o.budget = none) :
    ∃ out, Search.solve f' o = .ok out ∧
      (out.tally.solved = true ↔
        moves = [] ∧ ∃ further, Puzzle.isSolvedBy f' further = true) ∧
      (f'.isSolved = true → out.tally.solved = true → out.moves = []) := by
  obtain ⟨hdeclared, -, -⟩ := declared_of_ofDeclaration h
  have hunnoticed := unnoticed_of_apart hfixed
  obtain ⟨played, hmoves, hplayed⟩ := played_of_replay hreplay
  have hdeclared' := hplayed.declared hdeclared
  obtain ⟨out, hsolve, hyes, hno, hfinished⟩ := hdeclared'.solve_completes o
  refine ⟨out, hsolve, ⟨fun hsolved => ?_, ?_⟩, fun hdone hsolved => ?_⟩
  · obtain ⟨chosen, -, hchosen⟩ := hyes hsolved
    obtain rfl := hplayed.eq_nil_of_completes h hunnoticed hchosen
    exact ⟨List.forall₂_nil_right_iff.mp hmoves, chosen.map Subset.choice,
      (hdeclared'.isSolvedBy_iff hchosen.mem).mpr hchosen.marked⟩
  · rintro ⟨rfl, further, hfurther⟩
    obtain rfl : f = f' := by simpa [Puzzle.replay?] using hreplay
    by_contra hunsolved
    exact hno (by simpa using hunsolved) (hfinished hbudget)
      (exists_completes h hunnoticed hfurther)
  · obtain ⟨chosen, hchoices, hchosen⟩ := hyes hsolved
    rw [hchoices, hchosen.eq_nil_of_isSolved hdeclared' hdone, List.map_nil]

/-- A family is solved by one choice, and then a search finds no solution. -/
theorem exists_solved_and_unsolvable :
    ∃ f f', ofDeclaration ⟨["A"], [("a", ["A"])], []⟩ = .ok f ∧
      Puzzle.replay? f [(⟨["A"]⟩ : Choice)] = some f' ∧ f'.isSolved = true ∧
      (Search.solve f' {}).toOption.map (·.tally.solved) = some false :=
  ⟨_, _, rfl, rfl, rfl, by decide +kernel⟩

end Family

/-! ## Both -/

/-- **Which games a search goes on with.** On a board it finds a solution exactly if some further
moves solve the board, whatever was played. In a family whose fixed subsets share no item it does so
exactly if nothing was played since the declaration, and some moves solve the family. In both, what
it finds in a solved state has no moves. -/
theorem solve_resumes (hbudget : o.budget = none) :
    (∀ {g s moves t}, Sudoku.ofGrid g = .ok s → Puzzle.replay? s moves = some t →
      ∃ out, Search.solve t o = .ok out ∧
        (out.tally.solved = true ↔ ∃ further, Puzzle.isSolvedBy t further = true) ∧
        (t.isSolved = true → out.tally.solved = true ∧ out.moves = [])) ∧
    (∀ {d f moves f'}, Family.ofDeclaration d = .ok f → f.fixed.Pairwise Family.Subset.Apart →
      Puzzle.replay? f moves = some f' →
      ∃ out, Search.solve f' o = .ok out ∧
        (out.tally.solved = true ↔
          moves = [] ∧ ∃ further, Puzzle.isSolvedBy f' further = true) ∧
        (f'.isSolved = true → out.tally.solved = true → out.moves = [])) := by
  constructor
  · intro g s moves t h hreplay
    obtain ⟨out, hsolve, hiff, hdone⟩ := Sudoku.solve_played h hreplay hbudget
    exact ⟨out, hsolve, hiff, fun hsolved => ⟨hiff.mpr ⟨[], hsolved⟩, hdone hsolved⟩⟩
  · intro d f moves f' h hfixed hreplay
    exact Family.solve_played h hfixed hreplay hbudget

/-- A board and a family after one move each. -/
theorem solve_resumes_once :
    (∃ s t out, Sudoku.ofGrid ⟨[[1, 0, 0, 4], [0, 0, 1, 0], [0, 1, 0, 0], [4, 0, 0, 0]]⟩ = .ok s ∧
      Puzzle.replay? s [⟨1, 2, .four⟩] = some t ∧ Search.solve t {} = .ok out ∧
      (out.tally.solved = true ↔ ∃ further, Puzzle.isSolvedBy t further = true)) ∧
    ∃ f f' out, Family.ofDeclaration ⟨["A", "B"], [("a", ["A"]), ("b", ["B"])], []⟩ = .ok f ∧
      Puzzle.replay? f [(⟨["A"]⟩ : Family.Choice)] = some f' ∧ Search.solve f' {} = .ok out ∧
      out.tally.solved = false := by
  obtain ⟨hboard, hfamily⟩ := solve_resumes (o := {}) rfl
  constructor
  · obtain ⟨s, t, hs, ht⟩ : ∃ s t,
        Sudoku.ofGrid ⟨[[1, 0, 0, 4], [0, 0, 1, 0], [0, 1, 0, 0], [4, 0, 0, 0]]⟩ = .ok s ∧
          Puzzle.replay? s [⟨1, 2, .four⟩] = some t := ⟨_, _, rfl, rfl⟩
    obtain ⟨out, hsolve, hiff, -⟩ := hboard hs ht
    exact ⟨s, t, out, hs, ht, hsolve, hiff⟩
  · obtain ⟨f, f', hf, hfixed, hf'⟩ : ∃ f f',
        Family.ofDeclaration ⟨["A", "B"], [("a", ["A"]), ("b", ["B"])], []⟩ = .ok f ∧
          f.fixed.Pairwise Family.Subset.Apart ∧
          Puzzle.replay? f [(⟨["A"]⟩ : Family.Choice)] = some f' :=
      ⟨_, _, rfl, by decide +kernel, rfl⟩
    obtain ⟨out, hsolve, hiff, -⟩ := hfamily hf hfixed hf'
    exact ⟨f, f', out, hf, hf', hsolve, by simpa using hiff⟩

end ExactCover
