import ExactCover.Proofs.Sudoku.Legality

/-!
# Solved boards

The rules call a board solved if it is full and holds no digit twice in a row, a column or a box.
That every digit is everywhere is not asked for. It follows, since a house has no more cells than
there are digits. The exact cover problem looks at the same boards from the other side: the numbers
on a board meet four constraints each, and on a solved board these are all constraints, each once.

Both sides come down to clashes, two filled cells with the same number in one house.

* **`isConsistent_iff`**: a board is consistent if no two of its filled cells clash.
* **`isConsistent_eq_scan`**: a scan of the board that stops at the first repeat finds out the same.
* **`nodup_keys_initial_iff`**: so do the keys of the numbers on the board.
* **`perm_keys_iff`**, **`isSolved_iff_houses`**: what it is to be solved, as an exact cover and
  house by house.
-/

namespace ExactCover

namespace Sudoku

variable {s : Sudoku}

/-! ## Clashes -/

/-- The cells that are filled, from the top left on. -/
def filled (s : Sudoku) : List Nat := (positions s.size).filter (s.valueAt · ≠ 0)

theorem mem_filled {q : Nat} : q ∈ s.filled ↔ s.valueAt q ≠ 0 := by
  simp only [filled, List.mem_filter, mem_positions, decide_eq_true_eq]
  exact and_iff_right_of_imp lt_of_valueAt

theorem length_filled (s : Sudoku) : s.filled.length = s.givens :=
  List.countP_eq_length_filter.symm

/-- The initial moves are the placements of the filled cells, in order. -/
theorem initial_eq (s : Sudoku) : s.initial = s.filled.map (placement s.size s) := rfl

theorem position_initial (s : Sudoku) : s.initial.map Placement.position = s.filled := by
  rw [initial_eq, List.map_map]
  exact List.map_id _

/-- Whether two cells have the same number, and a row, a column or a box in common. -/
def Clash (s : Sudoku) (q q' : Nat) : Prop :=
  s.valueAt q = s.valueAt q' ∧
    (q / s.size.side = q' / s.size.side ∨ q % s.size.side = q' % s.size.side ∨
      s.size.boxOf (q / s.size.side) (q % s.size.side) =
        s.size.boxOf (q' / s.size.side) (q' % s.size.side))

/-- Houses of one kind, where `f` says which one a cell is in. No house of the kind holds a digit
twice if and only if no two filled cells of one house hold the same digit. -/
theorem nodup_digitsIn_iff {f : Nat → Nat} (hf : ∀ q < s.size.cells, f q < s.size.side) :
    (∀ i < s.size.side, (s.digitsIn ((positions s.size).filter (f · = i))).Nodup) ↔
      s.filled.Pairwise fun q q' => f q = f q' → s.valueAt q ≠ s.valueAt q' := by
  have hhouse : ∀ i, (s.digitsIn ((positions s.size).filter (f · = i))).Nodup ↔
      ∀ q q', [q, q'].Sublist s.filled → f q = i → f q' = i →
        s.valueAt q ≠ s.valueAt q' := fun i => by
    have hcells : s.digitsIn ((positions s.size).filter (f · = i)) =
        (s.filled.filter (f · = i)).map s.valueAt := by
      rw [digitsIn, List.filter_map, filled, List.filter_filter, List.filter_filter]
      refine congrArg _ (List.filter_congr fun q _ => ?_)
      simp [Bool.and_comm]
    rw [hcells, List.Nodup, List.pairwise_map, List.pairwise_filter,
      List.pairwise_iff_forall_sublist]
    simp only [decide_eq_true_eq]
  rw [List.pairwise_iff_forall_sublist]
  simp only [hhouse]
  constructor
  · intro h q q' hsub heq
    have hq := mem_filled.mp (hsub.subset List.mem_cons_self)
    exact h _ (hf q (lt_of_valueAt hq)) q q' hsub rfl heq.symm
  · rintro h i - q q' hsub rfl heq
    exact h hsub heq.symm

/-- **A board is consistent if no two of its filled cells clash.** -/
theorem isConsistent_iff : s.isConsistent = true ↔ s.filled.Pairwise (¬ s.Clash · ·) := by
  have hn := s.size.side_pos
  have hrows := nodup_digitsIn_iff (s := s) (f := (· / s.size.side)) fun q hq =>
    Nat.div_lt_of_lt_mul hq
  have hcolumns := nodup_digitsIn_iff (s := s) (f := (· % s.size.side)) fun q _ =>
    Nat.mod_lt q hn
  have hboxes := nodup_digitsIn_iff (s := s)
    (f := fun q => s.size.boxOf (q / s.size.side) (q % s.size.side)) fun q hq =>
      Size.boxOf_lt (Nat.div_lt_of_lt_mul hq) (Nat.mod_lt q hn)
  have hparts : s.isConsistent = true ↔
      (∀ i < s.size.side, (s.digitsIn (rowCells s.size i)).Nodup) ∧
      (∀ i < s.size.side, (s.digitsIn (columnCells s.size i)).Nodup) ∧
      ∀ i < s.size.side, (s.digitsIn (boxCells s.size i)).Nodup := by
    simp only [isConsistent, houses, List.all_append, List.all_map, Bool.and_eq_true,
      List.all_eq_true, Function.comp_apply, decide_eq_true_eq, List.mem_range, and_assoc]
  rw [hparts]
  unfold rowCells columnCells boxCells
  rw [hrows, hcolumns, hboxes, ← List.pairwise_and_iff, ← List.pairwise_and_iff]
  refine List.Pairwise.iff fun q q' => ?_
  constructor
  · rintro ⟨hrow, hcolumn, hbox⟩ ⟨hvalue, heq | heq | heq⟩
    · exact hrow heq hvalue
    · exact hcolumn heq hvalue
    · exact hbox heq hvalue
  · intro h
    exact ⟨fun heq hvalue => h ⟨hvalue, Or.inl heq⟩,
      fun heq hvalue => h ⟨hvalue, Or.inr (Or.inl heq)⟩,
      fun heq hvalue => h ⟨hvalue, Or.inr (Or.inr heq)⟩⟩

/-! ## A scan of the board -/

/-- What a scan notes down for a filled cell: its number in its row, its column and its box. -/
def notes (s : Sudoku) (q : Nat) : List Constraint :=
  [.inRow (q / s.size.side) (s.valueAt q), .inColumn (q % s.size.side) (s.valueAt q),
    .inBox (s.size.boxOf (q / s.size.side) (q % s.size.side)) (s.valueAt q)]

/-- Notes something down, unless it is noted already. -/
def noteDown (seen : List Constraint) (note : Constraint) : Option (List Constraint) :=
  if note ∈ seen then none else some (note :: seen)

/-- Whether a scan of the board gets to its end, where it stops at the first note that it has made
before. -/
def isConsistentByScan (s : Sudoku) : Bool :=
  ((s.filled.flatMap s.notes).foldlM noteDown []).isSome

/-- Noting down succeeds as long as nothing is noted twice. -/
theorem isSome_noteDown {notes seen : List Constraint} :
    (notes.foldlM noteDown seen).isSome = true ↔ notes.Nodup ∧ ∀ note ∈ notes, note ∉ seen := by
  induction notes generalizing seen with
  | nil => simp
  | cons note notes ih =>
    rw [List.foldlM_cons, noteDown]
    by_cases hseen : note ∈ seen
    · simp [hseen]
    · rw [if_neg hseen, Option.bind_eq_bind, Option.bind_some, ih, List.nodup_cons]
      simp only [List.mem_cons, not_or, forall_eq_or_imp, hseen, not_false_eq_true, true_and]
      constructor
      · rintro ⟨hnodup, hfresh⟩
        exact ⟨⟨fun hmem => (hfresh note hmem).1 rfl, hnodup⟩,
          fun other hother => (hfresh other hother).2⟩
      · rintro ⟨⟨hnote, hnodup⟩, hfresh⟩
        exact ⟨hnodup, fun other hother => ⟨fun heq => hnote (heq ▸ hother), hfresh other hother⟩⟩

/-- Two filled cells have a note in common if and only if they clash. -/
theorem disjoint_notes {q q' : Nat} :
    List.Disjoint (s.notes q) (s.notes q') ↔ ¬ s.Clash q q' := by
  simp only [notes, List.disjoint_cons_left, List.disjoint_nil_left, List.mem_cons,
    Constraint.inRow.injEq, Constraint.inColumn.injEq, Constraint.inBox.injEq, reduceCtorEq,
    List.not_mem_nil, or_false, false_or, and_true]
  rw [← not_or, ← not_or, ← or_and_right, ← or_and_right, and_comm]
  rfl

/-- **A scan finds out whether a board is consistent.** -/
theorem isConsistent_eq_scan (s : Sudoku) : s.isConsistent = s.isConsistentByScan := by
  have hself : ∀ q ∈ s.filled, (s.notes q).Nodup := fun q _ => by simp [notes]
  rw [Bool.eq_iff_iff, isConsistent_iff, isConsistentByScan, isSome_noteDown,
    and_iff_left fun _ _ => List.not_mem_nil, List.nodup_flatMap, and_iff_right hself]
  exact List.Pairwise.iff fun q q' => disjoint_notes.symm

/-! ## Keys -/

/-- Their placements meet a constraint in common in just the same case, although each meets one
more, that of its cell. -/
theorem disjoint_constraints {q q' : Nat} :
    List.Disjoint (placement s.size s q).constraints (placement s.size s q').constraints ↔
      ¬ s.Clash q q' := by
  have hshares := shares_iff (s := s) (p := placement s.size s q') (q := q) rfl
  have hclash : (q = q' ∨ s.Clash q q') ↔ s.Clash q q' :=
    or_iff_right_of_imp fun heq => heq ▸ ⟨rfl, Or.inl rfl⟩
  rw [List.disjoint_comm, List.disjoint_left, ← not_iff_not]
  push Not
  rw [hshares]
  exact hclash

/-- The constraints that the numbers on a board meet, number by number. -/
def met (s : Sudoku) : List Constraint := s.initial.flatMap Placement.constraints

/-- The keys of the initial moves are those of the constraints that are met. -/
theorem keys_initial (s : Sudoku) :
    s.initial.flatMap Placement.keys = s.met.map Constraint.key := by
  rw [met, List.map_flatMap]
  rfl

/-- Each given meets four constraints. -/
theorem length_met (s : Sudoku) : s.met.length = 4 * s.givens := by
  simp [met, initial_eq, List.length_flatMap, Placement.constraints, length_filled, Nat.mul_comm,
    Function.comp_def]

theorem isOn_of_mem_met (hrange : ∀ q, s.valueAt q ≤ s.size.side) {k : Constraint}
    (hk : k ∈ s.met) : k.IsOn s.size := by
  obtain ⟨p, hp, hk⟩ := List.mem_flatMap.mp hk
  obtain ⟨q, hq, rfl⟩ := mem_initial.mp hp
  exact isOn_of_mem (isValid_placement hrange hq) hk

/-- The constraints that are met show whether the board is consistent. -/
theorem nodup_met_iff : s.met.Nodup ↔ s.isConsistent = true := by
  have hself : ∀ p ∈ s.initial, p.constraints.Nodup := fun p _ => by simp [Placement.constraints]
  rw [isConsistent_iff, met, List.nodup_flatMap, and_iff_right hself, initial_eq, List.pairwise_map]
  exact List.Pairwise.iff fun q q' => disjoint_constraints

/-- Different constraints of a board have different keys, so keys repeat where constraints do. -/
theorem nodup_keys_initial_iff (hrange : ∀ q, s.valueAt q ≤ s.size.side) :
    (s.initial.flatMap Placement.keys).Nodup ↔ s.isConsistent = true := by
  rw [keys_initial, ← nodup_met_iff]
  refine ⟨List.Nodup.of_map _, fun hnodup => hnodup.map_on fun k hk k' hk' heq => ?_⟩
  exact Constraint.key_injective (fits_of_isOn (isOn_of_mem_met hrange hk))
    (fits_of_isOn (isOn_of_mem_met hrange hk')) heq

/-! ## Solved boards -/

theorem length_constraints (size : Size) : (constraints size).length = 4 * size.cells := by
  simp [constraints, pairs, List.length_flatMap, Size.cells]
  omega

/-- **On a solved board every constraint is met, and none twice.** There are four constraints for
each cell, and a full board without repeats meets as many. -/
theorem perm_keys_iff (hrange : ∀ q, s.valueAt q ≤ s.size.side) :
    (s.initial.flatMap Placement.keys).Perm ((constraints s.size).map Constraint.key) ↔
      s.isSolved = true := by
  rw [isSolved, Bool.and_eq_true, isFull_iff, ← nodup_keys_initial_iff hrange, keys_initial]
  constructor
  · intro hperm
    have hlength := hperm.length_eq
    rw [List.length_map, List.length_map, length_met, length_constraints] at hlength
    refine ⟨by omega, hperm.nodup_iff.mpr ?_⟩
    rw [← keys_table]
    exact nodup_keys
  · rintro ⟨hfull, hnodup⟩
    have hsub : s.met ⊆ constraints s.size := fun k hk =>
      mem_constraints.mpr (isOn_of_mem_met hrange hk)
    refine ((List.subperm_of_subset hnodup.of_map hsub).perm_of_length_le ?_).map _
    rw [length_met, length_constraints, hfull]

/-- **A board is solved if every house has every digit once.** -/
theorem isSolved_iff_houses (hrange : ∀ q, s.valueAt q ≤ s.size.side) :
    s.isSolved = true ↔ ∀ house ∈ houses s.size, ∀ d, 1 ≤ d → d ≤ s.size.side →
      (house.map s.valueAt).count d = 1 := by
  constructor
  · intro hsolved house hhouse d hd hd'
    have hplayed : Played s [] s := played_of_replay rfl
    have hcompletion := completion_of_solved hplayed hrange hsolved
    rw [(hcompletion.houses house hhouse).count_eq]
    exact List.count_eq_one_of_mem List.nodup_range' (List.mem_range'_1.mpr (by omega))
  · intro hcount
    -- a house has no more cells than digits, so it holds nothing else
    have hcompletion : Completion s s := by
      refine ⟨rfl, fun _ _ => rfl, fun house hhouse => ?_⟩
      have hsub : List.range' 1 s.size.side ⊆ house.map s.valueAt := fun d hd => by
        rw [List.mem_range'_1] at hd
        have hone := hcount house hhouse d hd.1 (by omega)
        exact List.count_pos_iff.mp (by omega)
      refine ((List.subperm_of_subset List.nodup_range' hsub).perm_of_length_le ?_).symm
      rw [List.length_map, List.length_range', length_house hhouse]
    refine hcompletion.isSolved (List.eq_nil_iff_forall_not_mem.mpr fun p hp => ?_)
    obtain ⟨hlt, hempty, -⟩ := mem_fills.mp hp
    have hpos := (hcompletion.value_range hlt).1
    omega

/-- **The solved boards are the exact covers.** On every board that a grid shows, there is one
initial move for each filled cell. No house holds a digit twice if and only if the keys of these
moves are different strings; a scan of the board finds out the same. The board is solved if and only
if these keys are those of all constraints, in some order, and also if and only if every row, every
column and every box has every digit once. -/
theorem solved_iff_covers {g : Grid} {s : Sudoku} (h : ofGrid g = .ok s) :
    (Puzzle.initial s).map Placement.position = s.filled ∧
    s.isConsistent = s.isConsistentByScan ∧
    (s.isConsistent = true ↔ ((Puzzle.initial s).flatMap Move.keys).Nodup) ∧
    (Puzzle.isSolved s = true ↔
      ((Puzzle.initial s).flatMap Move.keys).Perm (Puzzle.constraints s)) ∧
    (Puzzle.isSolved s = true ↔ ∀ house ∈ houses s.size, ∀ d, 1 ≤ d → d ≤ s.size.side →
      (house.map s.valueAt).count d = 1) := by
  have hrange := valueAt_le_of_ofGrid h
  exact ⟨position_initial s, isConsistent_eq_scan s, (nodup_keys_initial_iff hrange).symm,
    (perm_keys_iff hrange).symm, isSolved_iff_houses hrange⟩

/-- A full board with every digit once in each row and each column, but not in each box: its keys
repeat, and they are not those of all constraints. -/
theorem solved_iff_covers_latin :
    ∃ s, ofGrid ⟨[[1, 2, 3, 4], [2, 3, 4, 1], [3, 4, 1, 2], [4, 1, 2, 3]]⟩ = .ok s ∧
      s.isFull = true ∧ s.isConsistentByScan = false ∧
      ¬ ((Puzzle.initial s).flatMap Move.keys).Nodup ∧
      ¬ ((Puzzle.initial s).flatMap Move.keys).Perm (Puzzle.constraints s) ∧
      ¬ ∀ house ∈ houses s.size, ∀ d, 1 ≤ d → d ≤ s.size.side →
        (house.map s.valueAt).count d = 1 := by
  obtain ⟨s, hs⟩ : ∃ s, ofGrid ⟨[[1, 2, 3, 4], [2, 3, 4, 1], [3, 4, 1, 2], [4, 1, 2, 3]]⟩ = .ok s :=
    ⟨_, rfl⟩
  obtain ⟨-, hscan, hnodup, hperm, hhouses⟩ := solved_iff_covers hs
  have hfull : s.isFull = true := by
    cases hs
    decide +kernel
  have hconsistent : s.isConsistent = false := by
    cases hs
    decide +kernel
  have hunsolved : Puzzle.isSolved s ≠ true := by
    show ¬ (s.isFull && s.isConsistent) = true
    simp [hconsistent]
  rw [hconsistent] at hscan hnodup
  exact ⟨s, hs, hfull, hscan.symm, fun h => Bool.false_ne_true (hnodup.mpr h),
    fun h => hunsolved (hperm.mpr h), fun h => hunsolved (hhouses.mpr h)⟩

end Sudoku

end ExactCover
