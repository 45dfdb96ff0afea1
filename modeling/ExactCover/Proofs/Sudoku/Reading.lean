import ExactCover.Proofs.Steps
import ExactCover.Proofs.Sudoku.Completion
import ExactCover.Proofs.Text.Lines
import ExactCover.Sudoku.Printer
import ExactCover.Sudoku.Reader

/-!
# Boards are read back

The line of a board depends on its size: up to nine by nine it has one character for each cell, and
above that one number for each cell. A reader is told nothing of the size. It goes by the blanks on
the line, and by how many cells it finds. The two agree on every board, and a text may list boards
of all sizes, with blanks around them and comments between them.

* **`Sudoku.readCells_line`**: the numbers on a board are read back from its line.
* **`Sudoku.ofCells_values`**, **`Sudoku.ofGrid_grid`**: its grid is cut out of these numbers again,
  and it is the grid of this board only.
* **`Sudoku.readLine_line`**: so a board is read back from its line.
* **`Sudoku.Listing`**: lines with some boards on them.
* **`Sudoku.read_listing`**: boards are read back from every text with such lines.
-/

namespace ExactCover

/-! ## Digits -/

namespace Text

theorem isBlank_of_isDigit {c : Char} (h : c.isDigit = true) : isBlank c = false := by
  have hrange := toNat_of_isDigit h
  simp only [isBlank, blankRanges, List.any_cons, List.any_nil, Bool.or_false, Bool.or_eq_false_iff,
    Bool.and_eq_false_iff, decide_eq_false_iff_not]
  omega

theorem isWord_toDigits (n : Nat) : IsWord (Nat.toDigits 10 n) where
  ne_nil := Nat.toDigits_ne_nil
  solid _ hc := isBlank_of_isDigit (isDigit_of_mem_toDigits hc)

/-- A number is read back from its numeral. -/
theorem number?_toDigits {n : Nat} (h : n ≤ largest) : number? (Nat.toDigits 10 n) = some n := by
  unfold number?
  split
  · next cs heq =>
    -- a plus sign is no digit
    have hplus : '+'.isDigit = true := isDigit_of_mem_toDigits (heq ▸ List.mem_cons_self)
    cases hplus
  · exact digits?_toDigits h

end Text

namespace Sudoku

variable {s : Sudoku}

/-! ## The grid of a board -/

/-- The numbers on a board, from the top left on. -/
def values (s : Sudoku) : List Nat := (positions s.size).map s.valueAt

/-- Numbers are cut into rows by their places. -/
theorem chunks_eq {α : Type} {width n : Nat} {xs : List α} (hwidth : 0 < width)
    (h : xs.length = n * width) :
    Grid.chunks width xs = (List.range n).map fun i => (xs.drop (i * width)).take width := by
  have hcount : (xs.length + width - 1) / width = n := by
    rw [h, Nat.add_sub_assoc hwidth, Nat.mul_comm, Nat.mul_add_div hwidth,
      Nat.div_eq_of_lt (by omega), Nat.add_zero]
  rw [Grid.chunks, hcount]

/-- The rows of the grid are cut out of the numbers again. -/
theorem ofCells_values (s : Sudoku) : Grid.ofCells s.size.side s.values = s.grid := by
  have hlength : s.values.length = s.size.side * s.size.side := by
    simp [values, positions, Size.cells]
  rw [Grid.ofCells, chunks_eq s.size.side_pos hlength]
  refine congrArg Grid.mk (List.map_congr_left fun r hr => ?_)
  have hr' : r * s.size.side + s.size.side ≤ s.size.cells := by
    rw [← Nat.succ_mul]
    exact Nat.mul_le_mul_right _ (List.mem_range.mp hr)
  refine List.ext_getElem ?_ fun c hc hc' => ?_
  · simp only [values, positions, List.length_take, List.length_drop, List.length_map,
      List.length_range]
    omega
  · simp [values, positions]

/-- A number in the grid is one on the board. -/
theorem exists_valueAt_of_mem_cells {r c value : Nat} (h : (r, c, value) ∈ s.grid.cells) :
    ∃ q, s.valueAt q = value := by
  obtain ⟨⟨row, r'⟩, hrow, hcell⟩ := List.mem_flatMap.mp h
  obtain ⟨⟨value', c'⟩, hvalue, heq⟩ := List.mem_map.mp hcell
  cases heq
  obtain ⟨r'', -, rfl⟩ := List.mem_map.mp (List.fst_mem_of_mem_zipIdx hrow)
  obtain ⟨q, -, hq⟩ := List.mem_map.mp (List.fst_mem_of_mem_zipIdx hvalue)
  exact ⟨_, hq⟩

/-- A board is what its grid shows. -/
theorem ofGrid_grid (hrange : ∀ q, s.valueAt q ≤ s.size.side) : ofGrid s.grid = .ok s := by
  have hsize : Size.ofSide? s.grid.rows.length = some s.size := by
    rw [grid, List.length_map, List.length_range, Size.ofSide?_side]
  unfold ofGrid
  rw [hsize]
  dsimp only
  split
  · next row r hfind =>
    -- no row has another width
    have hmem := List.fst_mem_of_mem_zipIdx (List.mem_of_find?_eq_some hfind)
    obtain ⟨r', -, rfl⟩ := List.mem_map.mp hmem
    have hwidth := List.find?_some hfind
    simp at hwidth
  · split
    · next r c value hfind =>
      -- no number is too large
      have hlarge := List.find?_some hfind
      obtain ⟨q, rfl⟩ := exists_valueAt_of_mem_cells (List.mem_of_find?_eq_some hfind)
      exact absurd (hrange q) (by simpa using hlarge)
    · obtain ⟨size, cells⟩ := s
      refine congrArg (fun cells => Except.ok (Sudoku.mk size cells)) (Vector.ext fun q hq => ?_)
      have hrow : q / size.side < size.side := Nat.div_lt_of_lt_mul hq
      have hcolumn : q % size.side < size.side := Nat.mod_lt _ size.side_pos
      simp [grid, Grid.valueAt, hrow, hcolumn, valueAt, Nat.div_add_mod', hq]

/-! ## Cells -/

/-- A cell of a small board is read back from its character. -/
theorem cellValue?_cellChar {v : Nat} (h : v < 10) : cellValue? (cellChar v) = some v := by
  have hall : ∀ v < 10, cellValue? (cellChar v) = some v := by decide
  exact hall v h

theorem cellChar_of_lt {v : Nat} (h : v < 10) : cellChar v = '.' ∨ (cellChar v).isDigit = true := by
  have hall : ∀ v < 10, cellChar v = '.' ∨ (cellChar v).isDigit = true := by decide
  exact hall v h

theorem isBlank_cellChar {v : Nat} (h : v < 10) : Text.isBlank (cellChar v) = false := by
  rcases cellChar_of_lt h with hdot | hdigit
  · rw [hdot]
    decide
  · exact Text.isBlank_of_isDigit hdigit

/-- So all cells of a small board are. -/
theorem readCharacters_map {vs : List Nat} (h : ∀ v ∈ vs, v < 10) (number : Nat) :
    readCharacters number (vs.map cellChar) = .ok vs := by
  rw [readCharacters, List.zipIdx_map, List.mapM_map]
  refine (mapM_eq_ok fun x hx => ?_).trans (congrArg Except.ok (List.zipIdx_map_fst 1 vs))
  have hv : x.1 < 10 := h _ (List.fst_mem_of_mem_zipIdx hx)
  simp [cellValue?_cellChar hv]

/-- The cells of a large board are read back from numerals with any blanks around them. -/
theorem readNumbers_of_spaced {vs : List Nat} {line : List Char} (h : ∀ v ∈ vs, v ≤ Text.largest)
    (hline : Text.Spaced (vs.map (Nat.toDigits 10)) line) (number : Nat) :
    readNumbers number line = .ok vs := by
  rw [readNumbers, hline.words_eq, List.mapM_map]
  refine (mapM_eq_ok fun v hv => ?_).trans (congrArg Except.ok (List.map_id vs))
  simp [Text.number?_toDigits (h v hv)]

/-! ## One line -/

theorem length_values (s : Sudoku) : s.values.length = s.size.cells := by
  rw [values, List.length_map, positions, List.length_range]

/-- A board has at least two cells. -/
theorem exists_values (s : Sudoku) : ∃ v v' vs, s.values = v :: v' :: vs := by
  have hlength : 2 ≤ s.values.length := by
    rw [length_values]
    cases s.size <;> decide
  match hvalues : s.values with
  | [] => simp [hvalues] at hlength
  | [v] => simp [hvalues] at hlength
  | v :: v' :: vs => exact ⟨v, v', vs, rfl⟩

theorem le_of_mem_values (hrange : ∀ q, s.valueAt q ≤ s.size.side) {v : Nat} (hv : v ∈ s.values) :
    v ≤ s.size.side := by
  obtain ⟨q, -, rfl⟩ := List.mem_map.mp hv
  exact hrange q

/-- A board whose digits are digits is written without blanks. -/
theorem toList_line_of_small (hsmall : s.size.side < 10) :
    s.line.toList = s.values.map cellChar := by
  rw [line, if_pos hsmall, String.toList_ofList]
  rfl

/-- Any other board is written with a blank between its numbers. -/
theorem toList_line_of_large (hlarge : ¬ s.size.side < 10) :
    s.line.toList = [' '].intercalate (s.values.map (Nat.toDigits 10)) := by
  have hdigits : String.toList ∘ toString = Nat.toDigits 10 := funext fun v => by simp
  rw [line, if_neg hlarge, String.toList_intercalate, List.map_map, hdigits]
  rfl

theorem isWord_of_mem_numerals {vs : List Nat} {word : List Char}
    (hword : word ∈ vs.map (Nat.toDigits 10)) : Text.IsWord word := by
  obtain ⟨v, -, rfl⟩ := List.mem_map.mp hword
  exact Text.isWord_toDigits v

/-- The cells of a board are read back from its line. A small board is on it without blanks, a large
one with a space between any two of its numbers. -/
theorem readCells_line (hrange : ∀ q, s.valueAt q ≤ s.size.side) (number : Nat) :
    readCells number s.line.toList = .ok s.values := by
  by_cases hsmall : s.size.side < 10
  · have hdigits : ∀ v ∈ s.values, v < 10 := fun v hv =>
      Nat.lt_of_le_of_lt (le_of_mem_values hrange hv) hsmall
    have hsolid : (s.values.map cellChar).any Text.isBlank = false := by
      rw [List.any_map, List.any_eq_false]
      intro v hv
      simpa using isBlank_cellChar (hdigits v hv)
    rw [toList_line_of_small hsmall, readCells, hsolid]
    exact readCharacters_map hdigits number
  · have hspace : ([' '].intercalate (s.values.map (Nat.toDigits 10))).any Text.isBlank = true := by
      obtain ⟨v, v', vs, hvalues⟩ := s.exists_values
      refine List.any_eq_true.mpr ⟨' ', ?_, by decide⟩
      simp [hvalues, List.intercalate_cons_cons]
    rw [toList_line_of_large hsmall, readCells, hspace]
    exact readNumbers_of_spaced
      (fun v hv => Nat.le_trans (le_of_mem_values hrange hv) s.size.side_le_largest)
      (Text.spaced_intercalate fun _ => isWord_of_mem_numerals) number

/-- **A board is read back from its line.** -/
theorem readLine_line (hrange : ∀ q, s.valueAt q ≤ s.size.side) (number : Nat) :
    readLine number s.line.toList = .ok s := by
  simp only [readLine, readCells_line hrange, ok_bind, length_values, Size.ofCells?_cells,
    ofCells_values, ofGrid_grid hrange]
  rfl

/-- The line of a board has no blanks at its ends. -/
theorem isTight_line (hrange : ∀ q, s.valueAt q ≤ s.size.side) : Text.IsTight s.line.toList := by
  by_cases hsmall : s.size.side < 10
  · rw [toList_line_of_small hsmall]
    refine Text.IsWord.isTight ⟨?_, fun c hc => ?_⟩
    · obtain ⟨v, v', vs, hvalues⟩ := s.exists_values
      simp [hvalues]
    · obtain ⟨v, hv, rfl⟩ := List.mem_map.mp hc
      exact isBlank_cellChar (Nat.lt_of_le_of_lt (le_of_mem_values hrange hv) hsmall)
  · rw [toList_line_of_large hsmall]
    exact Text.isTight_intercalate fun _ => isWord_of_mem_numerals

/-- The line of a board starts with a digit or a dot. -/
theorem exists_line_eq_cons (hrange : ∀ q, s.valueAt q ≤ s.size.side) :
    ∃ c rest, s.line.toList = c :: rest ∧ (c = '.' ∨ c.isDigit = true) := by
  obtain ⟨v, v', vs, hvalues⟩ := s.exists_values
  by_cases hsmall : s.size.side < 10
  · have hv : v ≤ s.size.side := le_of_mem_values hrange (hvalues ▸ List.mem_cons_self)
    refine ⟨cellChar v, (v' :: vs).map cellChar, ?_, cellChar_of_lt (Nat.lt_of_le_of_lt hv hsmall)⟩
    rw [toList_line_of_small hsmall, hvalues]
    rfl
  · obtain ⟨rest, hrest⟩ := Text.exists_intercalate_cons (Nat.toDigits 10 v)
      ((v' :: vs).map (Nat.toDigits 10))
    obtain ⟨c, cs, hdigits⟩ := List.exists_cons_of_ne_nil (Text.isWord_toDigits v).ne_nil
    refine ⟨c, cs ++ rest, ?_, Or.inr (Text.isDigit_of_mem_toDigits (hdigits ▸ List.mem_cons_self))⟩
    rw [toList_line_of_large hsmall, hvalues, List.map_cons, hrest, hdigits, List.cons_append]

/-- The line of a board is not taken for a comment. -/
theorem isPuzzleLine_line (hrange : ∀ q, s.valueAt q ≤ s.size.side) :
    isPuzzleLine s.line.toList = true := by
  obtain ⟨c, rest, hline, hc⟩ := exists_line_eq_cons hrange
  have hmark : c ≠ '#' ∧ c ≠ 'c' := by
    constructor <;> rintro rfl <;> revert hc <;> decide
  simpa [isPuzzleLine, hline] using hmark

/-- The line of a board is one line. -/
theorem lineFeed_notMem_line (hrange : ∀ q, s.valueAt q ≤ s.size.side) : '\n' ∉ s.line.toList := by
  have hblank : Text.isBlank '\n' = true := by decide
  by_cases hsmall : s.size.side < 10
  · rw [toList_line_of_small hsmall]
    intro hmem
    obtain ⟨v, hv, hchar⟩ := List.mem_map.mp hmem
    have hsolid := isBlank_cellChar (Nat.lt_of_le_of_lt (le_of_mem_values hrange hv) hsmall)
    rw [hchar, hblank] at hsolid
    cases hsolid
  · rw [toList_line_of_large hsmall]
    refine Text.notMem_intercalate (by decide) fun word hword hmem => ?_
    have hsolid := (isWord_of_mem_numerals hword).solid _ hmem
    rw [hblank] at hsolid
    cases hsolid

/-! ## Whole texts -/

/-- Lines with some boards on them, in order: each line holds the line of a board with blanks around
it, or it is blank or a comment. -/
inductive Listing : List Sudoku → List (List Char) → Prop
  | nil : Listing [] []
  | board {s : Sudoku} {line : List Char} {boards : List Sudoku} {ls : List (List Char)} :
      Text.Padded s.line.toList line → Listing boards ls → Listing (s :: boards) (line :: ls)
  | idle {line : List Char} {boards : List Sudoku} {ls : List (List Char)} :
      Text.IsIdle ['#', 'c'] line → Listing boards ls → Listing boards (line :: ls)

/-- A line is read if it is neither blank nor a comment. -/
theorem isPuzzleLine_trim {line : List Char} :
    isPuzzleLine (Text.trim line) = true ↔ ¬ Text.IsIdle ['#', 'c'] line := by
  have hmarks : ∀ mark ∈ ['#', 'c'], Text.isBlank mark = false :=
    List.forall_mem_cons.mpr ⟨by decide, List.forall_mem_singleton.mpr (by decide)⟩
  rw [Text.isIdle_iff_trim hmarks]
  simp [isPuzzleLine]

/-- Of the lines of a listing, those of the boards are kept. Induction on the listing. -/
theorem Listing.mapM_readLine {boards : List Sudoku} {ls : List (List Char)}
    (h : Listing boards ls) (hrange : ∀ s ∈ boards, ∀ q, s.valueAt q ≤ s.size.side) (number : Nat) :
    (Text.keptLines isPuzzleLine number ls).mapM (fun (number, line) => readLine number line) =
      .ok boards := by
  induction h generalizing number with
  | nil => rfl
  | board hpadded _ ih =>
    obtain ⟨hs, hboards⟩ := List.forall_mem_cons.mp hrange
    rw [Text.keptLines, hpadded.trim_eq (isTight_line hs), if_pos (isPuzzleLine_line hs),
      List.mapM_cons]
    simp only [readLine_line hs, ih hboards]
    rfl
  | idle hidle _ ih =>
    rw [Text.keptLines, if_neg fun hkept => isPuzzleLine_trim.mp hkept hidle]
    exact ih hrange _

/-- Any boards can be listed in some text. -/
theorem exists_text {boards : List Sudoku}
    (hrange : ∀ s ∈ boards, ∀ q, s.valueAt q ≤ s.size.side) :
    ∃ (ls : List (List Char)) (text : String),
      Listing boards ls ∧ Text.HasLines ls text.toList := by
  let ls := boards.map (·.line.toList)
  refine ⟨ls, String.ofList (ls.flatMap (· ++ ['\n'])), ?_, ?_⟩
  · clear hrange
    induction boards with
    | nil => exact .nil
    | cons s boards ih => exact .board (.refl _) ih
  · rw [String.toList_ofList]
    refine Text.hasLines_flatMap fun line hline => ?_
    obtain ⟨s, hs, rfl⟩ := List.mem_map.mp hline
    exact lineFeed_notMem_line (hrange s hs)

/-- **Boards are read back from a text that lists them.** Any board that a grid shows is read back
from its line, whatever the number of the line. Any list of such boards is listed in some text, and
it is read back from every text whose lines hold the boards in order, each with any blanks around
it, where other lines are blank or comments and where lines end with a line feed, with or without a
carriage return before it. -/
theorem read_listing :
    (∀ g s number, ofGrid g = .ok s → readLine number s.line.toList = .ok s) ∧
    ∀ boards : List Sudoku, (∀ s ∈ boards, ∃ g, ofGrid g = .ok s) →
      (∃ (ls : List (List Char)) (text : String),
        Listing boards ls ∧ Text.HasLines ls text.toList) ∧
      ∀ {ls : List (List Char)} {text : String}, Listing boards ls → Text.HasLines ls text.toList →
        read text = .ok boards := by
  refine ⟨fun g s number h => readLine_line (valueAt_le_of_ofGrid h) number, ?_⟩
  intro boards hboards
  have hrange : ∀ s ∈ boards, ∀ q, s.valueAt q ≤ s.size.side := fun s hs => by
    obtain ⟨g, hg⟩ := hboards s hs
    exact valueAt_le_of_ofGrid hg
  refine ⟨exists_text hrange, fun hlisting htext => ?_⟩
  rw [read, puzzleLines, htext.keptLines_numberedLines (by decide)]
  exact hlisting.mapM_readLine hrange 1

/-- A large board on its own, and after a small one in a text with comments, a blank line, blanks
around the small board, both kinds of line ends, and none at the end. -/
theorem read_listing_sizes :
    ∃ s t, ofGrid ⟨[[1, 0, 0, 0], [0, 4, 0, 2], [2, 0, 4, 0], [0, 0, 0, 1]]⟩ = .ok s ∧
      ofGrid ⟨List.replicate 16 (List.replicate 16 0)⟩ = .ok t ∧
      readLine 7 t.line.toList = .ok t ∧
      read (String.ofList ("# boards".toList ++ '\r' :: '\n' :: ("\t1....4.22.4....1 ".toList ++
        '\n' :: ([] ++ '\n' :: ("c empty".toList ++ '\n' :: t.line.toList))))) = .ok [s, t] := by
  obtain ⟨s, hs⟩ : ∃ s, ofGrid ⟨[[1, 0, 0, 0], [0, 4, 0, 2], [2, 0, 4, 0], [0, 0, 0, 1]]⟩ = .ok s :=
    ⟨_, rfl⟩
  obtain ⟨t, ht⟩ : ∃ t, ofGrid ⟨List.replicate 16 (List.replicate 16 0)⟩ = .ok t := ⟨_, rfl⟩
  have hline : s.line.toList = "1....4.22.4....1".toList := by
    cases hs
    decide +kernel
  have hlisting : Listing [s, t] ["# boards".toList, "\t1....4.22.4....1 ".toList, [],
      "c empty".toList, t.line.toList] := by
    refine .idle (.inr ⟨[], by decide, '#', by decide, _, rfl⟩) ?_
    refine .board ⟨['\t'], [' '], by decide, by decide, by rw [hline]; rfl⟩ ?_
    refine .idle (.inl (by decide)) (.idle (.inr ⟨[], by decide, 'c', by decide, _, rfl⟩) ?_)
    exact .board (.refl _) .nil
  have htext := Text.HasLines.carriageReturn (by decide : '\n' ∉ "# boards".toList)
    (.lineFeed (by decide : '\n' ∉ "\t1....4.22.4....1 ".toList) (.lineFeed (by decide : '\n' ∉ [])
      (.lineFeed (by decide : '\n' ∉ "c empty".toList)
        (.last (lineFeed_notMem_line (valueAt_le_of_ofGrid ht))))))
  refine ⟨s, t, hs, ht, read_listing.1 _ _ 7 ht,
    (read_listing.2 [s, t] fun u hu => ?_).2 hlisting ?_⟩
  · simp only [List.mem_cons, List.not_mem_nil, or_false] at hu
    rcases hu with rfl | rfl
    · exact ⟨_, hs⟩
    · exact ⟨_, ht⟩
  · exact (congrArg (Text.HasLines _) String.toList_ofList).mpr htext

end Sudoku

end ExactCover
