import ExactCover.Proofs.Search.Exhaustive
import ExactCover.Proofs.Search.Refinement
import ExactCover.Proofs.Sudoku.Completion

/-!
# Completions are exact covers

The table of a board has one column for each constraint, and a row for each placement, which meets
the columns of its four constraints. What is filled already covers the columns of its constraints.
Of a completion, the placements that are still missing meet every other column exactly once.

* **`nodup_keys`**: no two columns of a board have the same key.
* **`mem_row`**: a placement meets the columns of its constraints.
* **`Completion.exists_unique`**: of the placements of a completion, one meets a given constraint.
* **`Completion.isExactCover`**: so those that are missing are an exact cover of what is left.
-/

namespace ExactCover

namespace Sudoku

/-! ## Constraints and placements of a board -/

theorem mem_pairs {size : Size} {i j : Nat} :
    (i, j) ∈ pairs size ↔ (1 ≤ i ∧ i ≤ size.side) ∧ 1 ≤ j ∧ j ≤ size.side := by
  simp only [pairs, List.mem_flatMap, List.mem_map, List.mem_range, Prod.mk.injEq]
  constructor
  · rintro ⟨i', hi, j', hj, rfl, rfl⟩
    omega
  · rintro ⟨⟨hi, hi'⟩, hj, hj'⟩
    exact ⟨i - 1, by omega, j - 1, by omega, by omega, by omega⟩

theorem nodup_pairs (size : Size) : (pairs size).Nodup := by
  refine List.nodup_flatMap.mpr ⟨fun i _ => ?_, ?_⟩
  · refine List.nodup_range.map fun j j' heq => ?_
    simpa using heq
  · refine List.Pairwise.imp (fun {i i'} hlt => ?_) List.pairwise_lt_range
    intro pair hpair hpair'
    obtain ⟨_, _, rfl⟩ := List.mem_map.mp hpair
    obtain ⟨_, _, heq⟩ := List.mem_map.mp hpair'
    simp only [Prod.mk.injEq] at heq
    omega

/-- Whether the numbers that a constraint mentions are numbers of the board. -/
def Constraint.IsOn (size : Size) : Constraint → Prop
  | .cell i j | .inRow i j | .inColumn i j | .inBox i j => (i, j) ∈ pairs size

/-- The columns are just the constraints of a board of this size. -/
theorem mem_constraints {size : Size} {k : Constraint} : k ∈ constraints size ↔ k.IsOn size := by
  cases k <;> simp [constraints, Constraint.IsOn]

/-- No constraint has two columns. Constraints of different kinds differ, and those of one kind
differ in their pairs of numbers. -/
theorem nodup_constraints (size : Size) : (constraints size).Nodup := by
  have hpairs := nodup_pairs size
  have hmap : ∀ f : Nat × Nat → Constraint, Function.Injective f → ((pairs size).map f).Nodup :=
    fun f hf => hpairs.map hf
  simp only [constraints, List.nodup_append, List.mem_append, List.mem_map]
  refine ⟨⟨⟨hmap _ ?_, hmap _ ?_, ?_⟩, hmap _ ?_, ?_⟩, hmap _ ?_, ?_⟩
  · rintro ⟨i, j⟩ ⟨i', j'⟩ heq
    simpa using heq
  · rintro ⟨i, j⟩ ⟨i', j'⟩ heq
    simpa using heq
  · rintro _ ⟨_, _, rfl⟩ _ ⟨_, _, rfl⟩
    simp
  · rintro ⟨i, j⟩ ⟨i', j'⟩ heq
    simpa using heq
  · rintro _ (⟨_, _, rfl⟩ | ⟨_, _, rfl⟩) _ ⟨_, _, rfl⟩ <;> simp
  · rintro ⟨i, j⟩ ⟨i', j'⟩ heq
    simpa using heq
  · rintro _ ((⟨_, _, rfl⟩ | ⟨_, _, rfl⟩) | ⟨_, _, rfl⟩) _ ⟨_, _, rfl⟩ <;> simp

theorem fits_of_isOn {size : Size} {k : Constraint} (h : k.IsOn size) : k.Fits := by
  have hside := size.side_le_largest
  cases k with
  | cell i j | inRow i j | inColumn i j | inBox i j =>
    have hpair := mem_pairs.mp h
    constructor <;> omega

/-- The rows are made for all valid placements on a board of this size. -/
theorem mem_candidates {size : Size} {p : Placement} :
    p ∈ candidates size ↔ p.size = size ∧ p.isValid = true := by
  simp only [candidates, List.mem_flatMap, mem_positions, List.mem_map, List.mem_range,
    Placement.valid_iff]
  constructor
  · rintro ⟨q, hq, i, hi, rfl⟩
    exact ⟨rfl, hq, by simp, hi⟩
  · rintro ⟨rfl, hposition, hpos, hle⟩
    refine ⟨p.position, hposition, p.value - 1, by omega, ?_⟩
    rw [Nat.sub_add_cancel hpos]

/-- A valid placement meets no constraint that has no column. -/
theorem isOn_of_mem {p : Placement} (h : p.isValid = true) {k : Constraint}
    (hk : k ∈ p.constraints) : k.IsOn p.size := by
  have hrow := Placement.row_lt h
  have hcolumn := Placement.column_lt (p := p)
  have hbox := Placement.box_lt h
  obtain ⟨-, hpos, hle⟩ := Placement.valid_iff.mp h
  simp only [Placement.constraints, List.mem_cons, List.not_mem_nil, or_false] at hk
  rcases hk with rfl | rfl | rfl | rfl <;> exact mem_pairs.mpr (by omega)

/-! ## The table of a board -/

variable {s t : Sudoku}

theorem keys_table : (Puzzle.table s).keys = (constraints s.size).map Constraint.key :=
  Table.keys_ofRows _ _

/-- Different constraints are written differently, so the columns have different keys. -/
theorem nodup_keys : (Puzzle.table s).keys.Nodup := by
  rw [keys_table]
  refine (nodup_constraints s.size).map_on fun k hk k' hk' heq => ?_
  exact Constraint.key_injective (fits_of_isOn (mem_constraints.mp hk))
    (fits_of_isOn (mem_constraints.mp hk')) heq

/-- Every column stands for a constraint. -/
theorem exists_constraint {c : ColumnId} (hc : c ∈ (Puzzle.table s).columns) :
    ∃ k : Constraint, k.IsOn s.size ∧ (Puzzle.table s).key c = k.key := by
  obtain ⟨h, hkey⟩ := Table.key_eq_getElem hc
  have hmem : (Puzzle.table s).key c ∈ (Puzzle.table s).keys := hkey ▸ List.getElem_mem h
  rw [keys_table] at hmem
  obtain ⟨k, hk, heq⟩ := List.mem_map.mp hmem
  exact ⟨k, mem_constraints.mp hk, heq.symm⟩

/-- A placement has the key of a constraint only if it meets this constraint. -/
theorem key_mem_keys {p : Placement} (h : p.isValid = true) {k : Constraint} (hk : k.Fits) :
    k.key ∈ p.keys ↔ k ∈ p.constraints := by
  constructor
  · intro hmem
    obtain ⟨k', hk', heq⟩ := List.mem_map.mp hmem
    exact Constraint.key_injective (Placement.fits_of_mem h hk') hk heq ▸ hk'
  · exact fun hmem => List.mem_map_of_mem hmem

/-- The columns that a placement meets. -/
def row (s : Sudoku) (p : Placement) : List ColumnId := (Puzzle.table s).meets p.keys

/-- **A placement meets the columns of its constraints.** -/
theorem mem_row {p : Placement} (h : p.isValid = true) {c : ColumnId} {k : Constraint}
    (hc : c ∈ (Puzzle.table s).columns) (hk : k.IsOn s.size)
    (hkey : (Puzzle.table s).key c = k.key) :
    c ∈ s.row p ↔ k ∈ p.constraints := by
  rw [row, Table.mem_meets nodup_keys, hkey, key_mem_keys h (fits_of_isOn hk)]
  exact and_iff_right hc

/-- No two constraints of a placement have the same key. -/
theorem Placement.nodup_keys {p : Placement} (h : p.isValid = true) : p.keys.Nodup := by
  have hnodup : p.constraints.Nodup := by simp [Placement.constraints]
  refine hnodup.map_on fun k hk k' hk' heq => ?_
  exact Constraint.key_injective (Placement.fits_of_mem h hk) (Placement.fits_of_mem h hk') heq

/-- The constraints of a placement are constraints of the board. -/
theorem Placement.keys_subset {p : Placement} (h : p.isValid = true) (hsize : p.size = s.size) :
    p.keys ⊆ (Puzzle.table s).keys := by
  intro key hkey
  obtain ⟨k, hk, rfl⟩ := List.mem_map.mp hkey
  rw [keys_table]
  exact List.mem_map_of_mem (mem_constraints.mpr (hsize ▸ isOn_of_mem h hk))

/-- The row of a placement meets the columns of its constraints. -/
theorem map_key_row {p : Placement} (h : p.isValid = true) (hsize : p.size = s.size) :
    ((s.row p).map (Puzzle.table s).key).Perm p.keys :=
  Table.map_key_meets nodup_keys (Placement.nodup_keys h)
    fun _ hkey => Placement.keys_subset h hsize hkey

/-- **The row of a placement reads as that placement from any of its columns.** -/
theorem ofKeys?_row {p : Placement} (h : p.isValid = true) (hsize : p.size = s.size) {c : ColumnId}
    (hc : c ∈ s.row p) :
    Puzzle.ofKeys? s ((c :: roundFrom (· == c) (s.row p)).map (Puzzle.table s).key) = some p := by
  have hperm := ((perm_roundFrom hc).map (Puzzle.table s).key).trans (map_key_row h hsize)
  have hread := Placement.ofKeys?_perm h hperm
  rwa [hsize] at hread

theorem row_mem_rows {p : Placement} (h : p.isValid = true) (hsize : p.size = s.size) :
    s.row p ≠ [] ∧ s.row p ∈ (Puzzle.table s).rows := by
  have hne : s.row p ≠ [] := fun hnil => by
    have hperm := map_key_row h hsize
    simp [hnil, Placement.keys, Placement.constraints] at hperm
  exact ⟨hne, Table.mem_rows_ofRows.mpr
    ⟨hne, p.keys, List.mem_map_of_mem (mem_candidates.mpr ⟨hsize, h⟩), rfl⟩⟩

/-! ## The exact cover of a completion -/

theorem countP_eq_one {α : Type} [DecidableEq α] {p : α → Bool} {l : List α} {a : α}
    (hnodup : l.Nodup) (ha : a ∈ l) (hp : p a = true) (hunique : ∀ b ∈ l, p b = true → b = a) :
    l.countP p = 1 := by
  have hperm : (l.filter p).Perm [a] := by
    refine (List.perm_ext_iff_of_nodup (hnodup.filter p) (List.nodup_singleton a)).mpr fun b => ?_
    rw [List.mem_filter, List.mem_singleton]
    exact ⟨fun hb => hunique b hb.1 hb.2, fun heq => heq ▸ ⟨ha, hp⟩⟩
  rw [List.countP_eq_length_filter, hperm.length_eq, List.length_singleton]

/-- The columns that are covered before the search. -/
def covered (s : Sudoku) : List ColumnId :=
  (AlgorithmX.precover (Puzzle.table s) [] (s.initial.flatMap Placement.keys)).1

/-- The initial moves are the givens. -/
theorem mem_initial {p : Placement} : p ∈ s.initial ↔
    ∃ q, s.valueAt q ≠ 0 ∧ p = placement s.size s q := by
  simp only [initial, List.mem_map, List.mem_filter, mem_positions, decide_eq_true_eq]
  constructor
  · rintro ⟨q, ⟨-, hq⟩, rfl⟩
    exact ⟨q, hq, rfl⟩
  · rintro ⟨q, hq, rfl⟩
    exact ⟨q, ⟨lt_of_valueAt hq, hq⟩, rfl⟩

namespace Completion

/-- Each cell of a completion is a valid placement. -/
theorem isValid (h : Completion s t) {q : Nat} (hq : q < s.size.cells) :
    (placement s.size t q).isValid = true :=
  Placement.valid_iff.mpr ⟨hq, h.value_range hq⟩

/-- If a constraint is that a house has a digit, one placement meets it. -/
theorem exists_unique_of_house (h : Completion s t) {k : Constraint} {house : List Nat} {d : Nat}
    (hhouse : house ∈ Sudoku.houses s.size) (hd : 1 ≤ d ∧ d ≤ s.size.side)
    (hmeets : ∀ q < s.size.cells,
      k ∈ (placement s.size t q).constraints ↔ q ∈ house ∧ t.valueAt q = d) :
    ∃ q < s.size.cells, k ∈ (placement s.size t q).constraints ∧
      ∀ q' < s.size.cells, k ∈ (placement s.size t q').constraints → q' = q := by
  obtain ⟨q, hq, hvalue⟩ := h.exists_cell hhouse hd.1 hd.2
  have hlt := lt_of_mem_house hhouse hq
  refine ⟨q, hlt, (hmeets q hlt).mpr ⟨hq, hvalue⟩, fun q' hlt' hk => ?_⟩
  obtain ⟨hq', hvalue'⟩ := (hmeets q' hlt').mp hk
  exact h.value_injective hhouse hq' hq (hvalue'.trans hvalue.symm)

/-- **Of the placements of a completion, one meets a given constraint.** For a row, a column or a
box and a digit this is what a completion is; for a cell it is the placement in it. -/
theorem exists_unique (h : Completion s t) {k : Constraint} (hk : k.IsOn s.size) :
    ∃ q < s.size.cells, k ∈ (placement s.size t q).constraints ∧
      ∀ q' < s.size.cells, k ∈ (placement s.size t q').constraints → q' = q := by
  cases k with
  | cell i j =>
    obtain ⟨⟨hi, hi'⟩, hj, hj'⟩ := mem_pairs.mp hk
    -- no other constraint of a placement is of this kind, so its row and its column decide
    have hmeets : ∀ q, .cell i j ∈ (placement s.size t q).constraints ↔
        i = q / s.size.side + 1 ∧ j = q % s.size.side + 1 := fun q => by
      simp [Placement.constraints, placement, Placement.row, Placement.column]
    obtain ⟨hlt, hdiv, hmod⟩ := Size.div_mod_position
      (show i - 1 < s.size.side by omega) (show j - 1 < s.size.side by omega)
    refine ⟨(i - 1) * s.size.side + (j - 1), hlt, ?_, fun q' _ hq' => ?_⟩
    · rw [hmeets, hdiv, hmod]
      omega
    · obtain ⟨rfl, rfl⟩ := (hmeets q').mp hq'
      rw [Nat.add_sub_cancel, Nat.add_sub_cancel, Nat.mul_comm]
      exact (Nat.div_add_mod _ _).symm
  | inRow i d =>
    obtain ⟨hi, hd⟩ := mem_pairs.mp hk
    refine h.exists_unique_of_house (rowCells_mem (show i - 1 < s.size.side by omega)) hd
      fun q hq => ?_
    simp only [Placement.constraints, placement, Placement.row, List.mem_cons, mem_rowCells]
    simp [hq]
    omega
  | inColumn j d =>
    obtain ⟨hj, hd⟩ := mem_pairs.mp hk
    refine h.exists_unique_of_house (columnCells_mem (show j - 1 < s.size.side by omega)) hd
      fun q hq => ?_
    simp only [Placement.constraints, placement, Placement.column, List.mem_cons, mem_columnCells]
    simp [hq]
    omega
  | inBox b d =>
    obtain ⟨hb, hd⟩ := mem_pairs.mp hk
    refine h.exists_unique_of_house (boxCells_mem (show b - 1 < s.size.side by omega)) hd
      fun q hq => ?_
    simp only [Placement.constraints, placement, Placement.box, Placement.row, Placement.column,
      List.mem_cons, mem_boxCells]
    simp [hq]
    omega

/-- The columns that are covered before the search are those that the given placements meet. -/
theorem mem_covered (h : Completion s t) {c : ColumnId} {k : Constraint}
    (hc : c ∈ (Puzzle.table s).columns) (hk : k.IsOn s.size)
    (hkey : (Puzzle.table s).key c = k.key) :
    c ∈ s.covered ↔ ∃ q, s.valueAt q ≠ 0 ∧ k ∈ (placement s.size t q).constraints := by
  -- a completion has the same number in a given cell
  have hplacement : ∀ q, s.valueAt q ≠ 0 → placement s.size s q = placement s.size t q := by
    intro q hq
    rw [placement, placement, h.keeps q hq]
  rw [covered, AlgorithmX.mem_precover nodup_keys hc, hkey]
  simp only [List.not_mem_nil, false_or, List.mem_flatMap, mem_initial]
  constructor
  · rintro ⟨_, ⟨q, hq, rfl⟩, hmem⟩
    rw [hplacement q hq, key_mem_keys (h.isValid (lt_of_valueAt hq)) (fits_of_isOn hk)] at hmem
    exact ⟨q, hq, hmem⟩
  · rintro ⟨q, hq, hmem⟩
    refine ⟨_, ⟨q, hq, rfl⟩, ?_⟩
    rw [hplacement q hq, key_mem_keys (h.isValid (lt_of_valueAt hq)) (fits_of_isOn hk)]
    exact hmem

/-- A placement that is missing is in a row all of whose columns are left: a given placement that
meets one of them would be this one. -/
theorem row_live (h : Completion s t) {q : Nat} (hq : q < s.size.cells) (hempty : s.valueAt q = 0)
    {c : ColumnId} (hc : c ∈ s.row (placement s.size t q)) :
    c ∈ (Puzzle.table s).live s.covered := by
  have hcolumn : c ∈ (Puzzle.table s).columns := Table.meets_sublist.subset hc
  obtain ⟨k, hk, hkey⟩ := exists_constraint hcolumn
  rw [mem_row (h.isValid hq) hcolumn hk hkey] at hc
  refine Table.mem_live.mpr ⟨hcolumn, fun hcovered => ?_⟩
  obtain ⟨q', hgiven, hk'⟩ := (h.mem_covered hcolumn hk hkey).mp hcovered
  obtain ⟨q₀, -, -, hunique⟩ := h.exists_unique hk
  have heq : q' = q := (hunique q' (lt_of_valueAt hgiven) hk').trans (hunique q hq hc).symm
  exact hgiven (heq ▸ hempty)

/-- A column that is left is met by one of the placements that are missing. -/
theorem countP_fills (h : Completion s t) {c : ColumnId}
    (hc : c ∈ (Puzzle.table s).live s.covered) :
    ((s.fills t).map s.row).countP (c ∈ ·) = 1 := by
  obtain ⟨hcolumn, hfree⟩ := Table.mem_live.mp hc
  obtain ⟨k, hk, hkey⟩ := exists_constraint hcolumn
  rw [h.mem_covered hcolumn hk hkey] at hfree
  obtain ⟨q, hq, hmem, hunique⟩ := h.exists_unique hk
  have hempty : s.valueAt q = 0 := by
    -- else the column would be covered
    by_contra hgiven
    exact hfree ⟨q, hgiven, hmem⟩
  -- so that placement is missing, and it is the only one that meets the column
  rw [fills, List.countP_map, List.countP_map]
  refine countP_eq_one s.nodup_empties (mem_empties.mpr ⟨hq, hempty⟩) ?_ fun q' hq' hmem' => ?_
  · simpa using (mem_row (h.isValid hq) hcolumn hk hkey).mpr hmem
  · have hlt := (mem_empties.mp hq').1
    refine hunique q' hlt ((mem_row (h.isValid hlt) hcolumn hk hkey).mp ?_)
    simpa using hmem'

/-- **The placements that are missing are an exact cover of what is left.** -/
theorem isExactCover (h : Completion s t) :
    (Puzzle.table s).IsExactCover s.covered ((s.fills t).map s.row) := by
  have hrows : ∀ r ∈ (s.fills t).map s.row,
      ∃ q < s.size.cells, s.valueAt q = 0 ∧ r = s.row (placement s.size t q) := fun r hr => by
    obtain ⟨p, hp, rfl⟩ := List.mem_map.mp hr
    obtain ⟨q, hq, rfl⟩ := List.mem_map.mp hp
    obtain ⟨hq, hempty⟩ := mem_empties.mp hq
    exact ⟨q, hq, hempty, rfl⟩
  refine ⟨fun r hr => ?_, fun r hr => ?_, fun r hr c hc => ?_, fun c hc => h.countP_fills hc⟩
  · obtain ⟨q, hq, -, rfl⟩ := hrows r hr
    exact (row_mem_rows (h.isValid hq) rfl).2
  · obtain ⟨q, hq, -, rfl⟩ := hrows r hr
    exact (row_mem_rows (h.isValid hq) rfl).1
  · obtain ⟨q, hq, hempty, rfl⟩ := hrows r hr
    exact h.row_live hq hempty hc

end Completion

end Sudoku

end ExactCover
