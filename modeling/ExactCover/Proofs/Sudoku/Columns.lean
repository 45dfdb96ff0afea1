import ExactCover.Proofs.Sudoku.Grammar

/-!
# Where a bad character stands

A character that is no cell is reported with its line and its column. The line is counted in the
whole text, but the column is counted from the first character of the line that is no blank. So it
is the column of the character on its line only where the line is not indented.

* **`Sudoku.PointsAt`**: the first character of a line that is neither a blank nor a cell, and its
  column; **`PointsAt.column_unique`**: there is one such column at most.
* **`Sudoku.column_after_indent`**: the column that is reported, and when it is that of the line.
* **`Sudoku.exists_indented`**: an indented line, and a column that is not that of the line.
-/

namespace ExactCover

namespace Sudoku

variable {line gap rest : List Char} {column : Nat} {c : Char}

/-- Whether a character stands in a column of a line, counted from one, and everything before it is
a blank or stands for a cell. -/
def PointsAt (line : List Char) (column : Nat) (c : Char) : Prop :=
  ∃ front back, line = front ++ c :: back ∧ column = front.length + 1 ∧
    ∀ d ∈ front, Text.isBlank d = true ∨ ∃ v, IsCell d v

/-- How many blanks a line starts with. -/
def indent (line : List Char) : Nat := (line.takeWhile Text.isBlank).length

theorem indent_append (hgap : Text.IsGap gap) (hrest : ∀ d ∈ rest.head?, Text.isBlank d = false) :
    indent (gap ++ rest) = gap.length := by
  have htake : rest.takeWhile Text.isBlank = [] := by
    cases rest with
    | nil => rfl
    | cons d rest => rw [List.takeWhile_cons_of_neg (by simp [hrest d rfl])]
  rw [indent, List.takeWhile_append_of_pos hgap, htake, List.append_nil]

/-- A character that is neither a blank nor a cell does not stand among such. -/
theorem notMem_front {front : List Char}
    (hfront : ∀ d ∈ front, Text.isBlank d = true ∨ ∃ v, IsCell d v)
    (hsolid : Text.isBlank c = false) (hcell : ¬ ∃ v, IsCell c v) : c ∉ front := fun hmem => by
  rcases hfront c hmem with hblank | hcell'
  · rw [hsolid] at hblank
    cases hblank
  · exact hcell hcell'

/-- Only one column is that of a character that is neither a blank nor a cell. -/
theorem PointsAt.column_unique {column' : Nat} (h : PointsAt line column c)
    (h' : PointsAt line column' c) (hsolid : Text.isBlank c = false) (hcell : ¬ ∃ v, IsCell c v) :
    column = column' := by
  obtain ⟨front, back, hline, rfl, hfront⟩ := h
  obtain ⟨front', back', hline', rfl, hfront'⟩ := h'
  obtain rfl := Text.front_unique (notMem_front hfront hsolid hcell)
    (notMem_front hfront' hsolid hcell) (hline.symm.trans hline')
  rfl

/-- **The column of a bad character is counted after the indentation.** The line that is reported is
the one with this number in the whole text. On it the character stands as many columns to the right
of those that are reported as the line has blanks at its start; everything before it is a blank or a
cell. So the column is the right one if and only if the line is not indented. -/
theorem column_after_indent {text : String} {number column : Nat} {c : Char}
    (h : read text = .error (.invalidCharacter number column c)) :
    0 < number ∧ ∃ line, (Text.lines text.toList)[number - 1]? = some line ∧
      PointsAt line (indent line + column) c ∧ (PointsAt line column c ↔ indent line = 0) := by
  obtain ⟨before, line, after, hlines, -, -, hfault⟩ := read_eq_error_iff.mp h
  rcases hfault with ⟨@⟨front, back, c, hsolid, htrim, hfront, hcell⟩⟩
  obtain ⟨htight, gap, gap', hgap, -, hline⟩ := Text.trim_spec line
  have hblank : Text.isBlank c = false := hsolid c (by simp [htrim])
  have hindent : indent line = gap.length := by
    rw [hline]
    refine indent_append hgap ?_
    rw [List.head?_append_of_ne_nil _ (by simp [htrim])]
    exact htight.head
  have hpoints : PointsAt line (indent line + (front.length + 1)) c := by
    refine ⟨gap ++ front, back ++ gap', ?_, ?_, fun d hd => ?_⟩
    · rw [hline, htrim]
      simp
    · rw [hindent, List.length_append, Nat.add_assoc]
    · exact (List.mem_append.mp hd).imp (hgap d) (hfront d)
  refine ⟨Nat.succ_pos _, line, by simp [hlines], hpoints, fun h' => ?_, fun h0 => ?_⟩
  · have hunique := hpoints.column_unique h' hblank hcell
    omega
  · rwa [h0, Nat.zero_add] at hpoints

/-- A bad character on an indented line, after a comment that is indented too. -/
theorem column_after_indent_comment :
    read "\t# cells\r\n 12.x4 \n" = .error (.invalidCharacter 2 4 'x') ∧
    ∃ line, (Text.lines "\t# cells\r\n 12.x4 \n".toList)[1]? = some line ∧
      PointsAt line 5 'x' ∧ ¬ PointsAt line 4 'x' := by
  have hread : read "\t# cells\r\n 12.x4 \n" = .error (.invalidCharacter 2 4 'x') := by
    decide +kernel
  obtain ⟨-, line, hline, hpoints, hiff⟩ := column_after_indent hread
  have hindent : indent line = 1 := by
    have hlines : (Text.lines "\t# cells\r\n 12.x4 \n".toList)[1]? = some " 12.x4 ".toList := by
      decide +kernel
    rw [hlines] at hline
    cases hline
    decide +kernel
  rw [hindent] at hpoints hiff
  exact ⟨hread, line, hline, hpoints, fun h => absurd (hiff.mp h) Nat.one_ne_zero⟩

/-- A text with one indented line, and its bad character in another column than the one that is
reported. -/
theorem exists_indented :
    read " x" = .error (.invalidCharacter 1 1 'x') ∧ Text.lines " x".toList = [" x".toList] ∧
      ¬ PointsAt " x".toList 1 'x' :=
  ⟨by decide +kernel, by decide +kernel, fun ⟨front, back, hline, hcolumn, _⟩ => by
    obtain rfl : front = [] := by simpa using hcolumn
    cases hline⟩

end Sudoku

end ExactCover
