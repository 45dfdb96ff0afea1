import ExactCover.Proofs.Sudoku.Grammar

/-!
# The picture of a board

A board is drawn as a grid with rules between the rows of boxes. The dashes of a rule are counted
from the size alone, and so the plus signs between them stand where the rows have their bars only if
all cells are drawn equally wide, whether their numbers have one digit or two. A reader who knows
nothing of the size reads the board back: it skips the rules and takes what stands between bars and
spaces.

* **`Sudoku.IsRule`**, **`Sudoku.readPicture?`**: what such a reader does.
* **`Sudoku.stack`**: rows with rules between them, and **`getElem?_stack`**: what stands on which
  line.
* **`Sudoku.aligned_drawRow`**: a rule and a row have their marks in the same columns.
* **`Sudoku.Laid`**: how the lines of a picture are laid out.
* **`Sudoku.picture_lossless`**: every board is drawn so, and can be read back.
-/

namespace ExactCover

namespace Sudoku

variable {s : Sudoku} {size : Size} {v : Nat} {c : Char} {row part : List Nat}

/-! ## Reading a picture -/

/-- The number that is written in a cell, where a dot stands for an empty cell. -/
def entryValue? : List Char → Option Nat
  | ['.'] => some 0
  | token => Text.number? token

/-- What stands between two numbers of a line. -/
def isSpacer (c : Char) : Bool := c = '|' || c = ' '

/-- The numbers in a row, which stand between bars and spaces. -/
def readRow? (line : List Char) : Option (List Nat) :=
  (Text.pieces isSpacer line).mapM entryValue?

/-- Whether a line is nothing but dashes and plus signs. -/
def IsRule (line : List Char) : Prop := ∀ c ∈ line, c = '-' ∨ c = '+'

instance (line : List Char) : Decidable (IsRule line) :=
  inferInstanceAs (Decidable (∀ c ∈ line, _))

/-- The numbers on a picture, row by row. -/
def readPicture? (text : List Char) : Option (List Nat) :=
  (((Text.lines text).filter fun line => ¬ IsRule line).mapM readRow?).map List.flatten

/-! ## Cells -/

/-- What is written in a cell, without the spaces in front. -/
def entry (v : Nat) : List Char := if v = 0 then ['.'] else Nat.toDigits 10 v

theorem mem_entry (h : c ∈ entry v) : c = '.' ∨ c.isDigit = true := by
  unfold entry at h
  split_ifs at h
  · exact .inl (List.mem_singleton.mp h)
  · exact .inr (Text.isDigit_of_mem_toDigits h)

theorem entry_ne_nil : entry v ≠ [] := by
  unfold entry
  split_ifs
  · exact List.cons_ne_nil _ _
  · exact Nat.toDigits_ne_nil

/-- A cell is read back from what is drawn for it, the dot included. -/
theorem entryValue?_entry (h : v ≤ Text.largest) : entryValue? (entry v) = some v := by
  unfold entry
  split_ifs with hv
  · rw [hv]
    rfl
  · unfold entryValue?
    split
    · next heq =>
      -- a dot is no digit
      have hdot : '.'.isDigit = true := Text.isDigit_of_mem_toDigits (heq ▸ List.mem_cons_self)
      cases hdot
    · exact Text.number?_toDigits h

theorem pieces_entry : Text.pieces isSpacer (entry v) = [entry v] := by
  refine Text.pieces_of_solid entry_ne_nil fun c hc => ?_
  have hsolid : c ≠ '|' ∧ c ≠ ' ' := by
    constructor <;> rintro rfl <;> exact absurd (mem_entry hc) (by decide)
  simpa [isSpacer] using hsolid

theorem toList_drawCell (width v : Nat) : (drawCell width v).toList =
    List.replicate (width - (entry v).length) ' ' ++ entry v := by
  unfold drawCell entry Text.padLeft Text.spaces
  split_ifs <;> simp [← String.length_toList]

/-- No number on a board is wider than the largest digit. -/
theorem length_entry_le (h : v ≤ size.side) : (entry v).length ≤ cellWidth size := by
  have hwidth : cellWidth size = (Nat.toDigits 10 size.side).length := by
    simp [cellWidth, ← String.length_toList]
  have hpos : 0 < cellWidth size := hwidth ▸ Nat.length_toDigits_pos
  unfold entry
  split_ifs
  · exact hpos
  · have hside : size.side < 10 ^ cellWidth size :=
      (Nat.length_toDigits_le_iff (by decide) hpos).mp hwidth.ge
    exact (Nat.length_toDigits_le_iff (by decide) hpos).mpr (Nat.lt_of_le_of_lt h hside)

/-- Every cell takes the same room, since no number on the board has more digits than its largest
one. -/
theorem length_drawCell (h : v ≤ size.side) :
    (drawCell (cellWidth size) v).toList.length = cellWidth size := by
  rw [toList_drawCell, List.length_append, List.length_replicate,
    Nat.sub_add_cancel (length_entry_le h)]

/-- Blanks in front of a number are not part of it. -/
theorem pieces_drawCell (width v : Nat) :
    Text.pieces isSpacer (drawCell width v).toList = [entry v] := by
  rw [toList_drawCell, Text.pieces_gap_append fun c hc => ?_, pieces_entry]
  rw [List.eq_of_mem_replicate hc]
  rfl

theorem mem_drawCell {width : Nat} (h : c ∈ (drawCell width v).toList) :
    c = ' ' ∨ c = '.' ∨ c.isDigit = true := by
  rw [toList_drawCell] at h
  rcases List.mem_append.mp h with h | h
  · exact .inl (List.eq_of_mem_replicate h)
  · exact .inr (mem_entry h)

/-! ## Rows -/

/-- The part of a row that lies in one box, as it is drawn. -/
def drawPart (width : Nat) (part : List Nat) : List Char :=
  ' ' :: ([' '].intercalate (part.map fun v => (drawCell width v).toList) ++ [' '])

/-- A row is drawn box by box, with bars between. -/
theorem toList_drawRow (size : Size) (row : List Nat) : (drawRow size row).toList =
    ['|'].intercalate ((Grid.chunks size.block row).map (drawPart (cellWidth size))) := by
  rw [drawRow, String.toList_intercalate, List.map_map]
  refine congrArg (List.intercalate _) (List.map_congr_left fun part _ => ?_)
  simp [drawPart, String.toList_intercalate, Function.comp_def]

/-- A rule has a dash for each character of a box, with plus signs between. -/
theorem toList_separator (size : Size) : (separator size).toList = ['+'].intercalate
    (List.replicate size.block
      (List.replicate (size.block * (cellWidth size + 1) + 1) '-')) := by
  simp [separator, String.toList_intercalate]

theorem mem_drawPart {width : Nat} (h : c ∈ drawPart width part) :
    c = ' ' ∨ c = '.' ∨ c.isDigit = true := by
  simp only [drawPart, List.mem_cons, List.mem_append, List.not_mem_nil, or_false] at h
  rcases h with h | h | h
  · exact .inl h
  · rcases Text.mem_of_mem_intercalate h with h | ⟨cell, hcell, h⟩
    · exact .inl (List.mem_singleton.mp h)
    · obtain ⟨v, -, rfl⟩ := List.mem_map.mp hcell
      exact mem_drawCell h
  · exact .inl h

/-- There is no dash and no plus sign in a row, so it cannot be taken for a rule. -/
theorem mem_drawRow (h : c ∈ (drawRow size row).toList) :
    c = '|' ∨ c = ' ' ∨ c = '.' ∨ c.isDigit = true := by
  rw [toList_drawRow] at h
  rcases Text.mem_of_mem_intercalate h with h | ⟨cells, hcells, h⟩
  · exact .inl (List.mem_singleton.mp h)
  · obtain ⟨part, -, rfl⟩ := List.mem_map.mp hcells
    exact .inr (mem_drawPart h)

theorem isRule_separator : IsRule (separator size).toList := by
  intro c hc
  rw [toList_separator] at hc
  rcases Text.mem_of_mem_intercalate hc with hc | ⟨dashes, hdashes, hc⟩
  · exact .inr (List.mem_singleton.mp hc)
  · rw [List.eq_of_mem_replicate hdashes] at hc
    exact .inl (List.eq_of_mem_replicate hc)

/-! ### Reading them -/

theorem pieces_drawPart (width : Nat) (part : List Nat) :
    Text.pieces isSpacer (drawPart width part) = part.map entry := by
  have hspace : isSpacer ' ' = true := rfl
  have hpart : drawPart width part = [' '] ++
    ([' '].intercalate (part.map fun v => (drawCell width v).toList) ++ ' ' :: []) := rfl
  rw [hpart, Text.pieces_gap_append (by simpa using hspace), Text.pieces_append hspace,
    Text.pieces_intercalate hspace, List.flatMap_map]
  simp only [pieces_drawCell, Text.pieces_nil, List.append_nil]
  exact List.flatMap_pure_eq_map entry part

/-- Cutting a list into pieces of one width loses nothing. Induction on the number of pieces. -/
theorem flatMap_take_drop {α : Type} (width : Nat) (xs : List α) (n : Nat) :
    ((List.range n).flatMap fun i => (xs.drop (i * width)).take width) = xs.take (n * width) := by
  induction n with
  | zero => simp
  | succ n ih => rw [List.range_succ, List.flatMap_append, ih, Nat.succ_mul, List.take_add,
      List.flatMap_singleton]

theorem chunks_row (h : row.length = size.side) : Grid.chunks size.block row =
    (List.range size.block).map fun i => (row.drop (i * size.block)).take size.block :=
  chunks_eq size.block_pos h

/-- A row is its boxes one after the other. -/
theorem flatten_chunks (h : row.length = size.side) :
    (Grid.chunks size.block row).flatten = row := by
  rw [chunks_row h, ← List.flatMap_def, flatMap_take_drop]
  exact List.take_of_length_le h.le

theorem length_of_mem_chunks (h : row.length = size.side)
    (hpart : part ∈ Grid.chunks size.block row) : part.length = size.block := by
  rw [chunks_row h] at hpart
  obtain ⟨i, hi, rfl⟩ := List.mem_map.mp hpart
  have hle : i * size.block + size.block ≤ row.length := by
    rw [h, ← Nat.succ_mul]
    exact Nat.mul_le_mul_right _ (List.mem_range.mp hi)
  rw [List.length_take, List.length_drop]
  omega

/-- The numbers of a row can be told apart on its line. -/
theorem pieces_drawRow (h : row.length = size.side) :
    Text.pieces isSpacer (drawRow size row).toList = row.map entry := by
  rw [toList_drawRow, Text.pieces_intercalate rfl, List.flatMap_map]
  simp only [pieces_drawPart]
  rw [← List.map_flatMap, List.flatMap_id', flatten_chunks h]

theorem chunks_ne_nil (h : row.length = size.side) : Grid.chunks size.block row ≠ [] := by
  rw [chunks_row h]
  simpa using size.block_pos.ne'

theorem le_of_mem_chunks (h : row.length = size.side) (hrange : ∀ v ∈ row, v ≤ size.side)
    (hpart : part ∈ Grid.chunks size.block row) : ∀ v ∈ part, v ≤ size.side := by
  intro v hv
  refine hrange v ?_
  rw [← flatten_chunks h]
  exact List.mem_flatten_of_mem hpart hv

/-- All numbers of a row are read back. -/
theorem mapM_entryValue? {vs : List Nat} (hrange : ∀ v ∈ vs, v ≤ size.side) :
    (vs.map entry).mapM entryValue? = some vs := by
  rw [mapM_eq_some_iff, List.forall₂_map_left_iff, List.forall₂_same]
  exact fun v hv => entryValue?_entry (Nat.le_trans (hrange v hv) size.side_le_largest)

/-- **The numbers in a row are read back.** -/
theorem readRow?_drawRow (h : row.length = size.side) (hrange : ∀ v ∈ row, v ≤ size.side) :
    readRow? (drawRow size row).toList = some row := by
  rw [readRow?, pieces_drawRow h, mapM_entryValue? hrange]

/-- The bars of a row stand between the boxes. -/
theorem mapM_readRow?_cut_drawRow (h : row.length = size.side) (hrange : ∀ v ∈ row, v ≤ size.side) :
    (Text.cut (· = '|') (drawRow size row).toList).mapM readRow? =
      some (Grid.chunks size.block row) := by
  have hne : (Grid.chunks size.block row).map (drawPart (cellWidth size)) ≠ [] := by
    simpa using chunks_ne_nil h
  rw [toList_drawRow, Text.cut_intercalate (decide_eq_true rfl) hne fun cells hcells d hd => ?_]
  · rw [mapM_eq_some_iff, List.forall₂_map_left_iff, List.forall₂_same]
    intro part hpart
    rw [readRow?, pieces_drawPart, mapM_entryValue? (le_of_mem_chunks h hrange hpart)]
  · obtain ⟨part, -, rfl⟩ := List.mem_map.mp hcells
    refine decide_eq_false ?_
    rintro rfl
    exact absurd (mem_drawPart hd) (by decide)

/-- A row is no rule, because it has numbers on it. -/
theorem not_isRule_drawRow (h : row.length = size.side) :
    ¬ IsRule (drawRow size row).toList := by
  obtain ⟨part, parts, hparts⟩ := List.exists_cons_of_ne_nil (chunks_ne_nil h)
  -- a row starts with a space
  intro hrule
  rw [toList_drawRow, hparts, List.map_cons, drawPart, List.intercalate_cons_cons_left] at hrule
  exact absurd (hrule ' ' List.mem_cons_self) (by decide)

/-! ### Their marks -/

/-- Two lines of one length such that the plus signs of the first one stand where the bars of the
second one do. -/
def Aligned : List Char → List Char → Prop := List.Forall₂ fun c d => c = '+' ↔ d = '|'

/-- Parts of the same lengths keep their marks in line when they are put together, as each plus sign
stands where a bar does. -/
theorem Aligned.intercalate {xs ys : List (List Char)} (h : List.Forall₂ Aligned xs ys) :
    Aligned (['+'].intercalate xs) (['|'].intercalate ys) := by
  induction h with
  | nil => exact .nil
  | cons hxy hrest ih =>
    cases hrest with
    | nil => simpa using hxy
    | cons _ _ =>
      rw [List.intercalate_cons_cons, List.intercalate_cons_cons]
      exact List.rel_append (List.rel_append hxy (.cons (by decide) .nil)) ih

/-- All boxes are equally wide. -/
theorem length_drawPart (h : part.length = size.block) (hrange : ∀ v ∈ part, v ≤ size.side) :
    (drawPart (cellWidth size) part).length = size.block * (cellWidth size + 1) + 1 := by
  have hne : part ≠ [] := List.length_pos_iff.mp (h ▸ size.block_pos)
  have hcells : ∀ cell ∈ part.map fun v => (drawCell (cellWidth size) v).toList,
      cell.length = cellWidth size := fun cell hcell => by
    obtain ⟨v, hv, rfl⟩ := List.mem_map.mp hcell
    exact length_drawCell (hrange v hv)
  have hwidth := Text.length_intercalate (c := ' ') (by simpa using hne) hcells
  rw [List.length_map, h] at hwidth
  rw [drawPart, List.length_cons, List.length_append, List.length_singleton, hwidth]

/-- The dashes of a rule and the part of a row below them are equally long, and neither has a
mark. -/
theorem aligned_drawPart (h : part.length = size.block) (hrange : ∀ v ∈ part, v ≤ size.side) :
    Aligned (List.replicate (size.block * (cellWidth size + 1) + 1) '-')
      (drawPart (cellWidth size) part) := by
  refine List.forall₂_iff_zip.mpr ⟨?_, fun {c d} hmem => ?_⟩
  · rw [List.length_replicate, length_drawPart h hrange]
  · obtain ⟨hc, hd⟩ := List.of_mem_zip hmem
    rw [List.eq_of_mem_replicate hc]
    refine iff_of_false (by decide) ?_
    rintro rfl
    exact absurd (mem_drawPart hd) (by decide)

/-- **The marks of a rule and of a row stand in the same columns.** -/
theorem aligned_drawRow (h : row.length = size.side) (hrange : ∀ v ∈ row, v ≤ size.side) :
    Aligned (separator size).toList (drawRow size row).toList := by
  rw [toList_separator, toList_drawRow]
  refine Aligned.intercalate (List.forall₂_iff_zip.mpr ⟨?_, fun {dashes cells} hmem => ?_⟩)
  · rw [chunks_row h]
    simp
  · obtain ⟨hdashes, hcells⟩ := List.of_mem_zip hmem
    obtain ⟨part, hpart, rfl⟩ := List.mem_map.mp hcells
    rw [List.eq_of_mem_replicate hdashes]
    exact aligned_drawPart (length_of_mem_chunks h hpart) (le_of_mem_chunks h hrange hpart)

/-! ## Lines -/

/-- Rows with a rule above each one whose number is a multiple of the block, the first one apart. -/
def stack {α : Type} (block : Nat) (rule : α) (rows : Nat → α) (n : Nat) : List α :=
  (List.range n).flatMap fun r => if 0 < r ∧ r % block = 0 then [rule, rows r] else [rows r]

section Stack

variable {α : Type} {block n : Nat} {rule line : α} {rows : Nat → α}

/-- A stack grows at its end, by a row and maybe a rule above it. -/
theorem stack_succ : stack block rule rows (n + 1) = stack block rule rows n ++
    if 0 < n ∧ n % block = 0 then [rule, rows n] else [rows n] := by
  rw [stack, List.range_succ, List.flatMap_append, List.flatMap_singleton]
  rfl

/-- Above a row stand all rows before it and as many rules as blocks of rows have started, the one
right above it included. Induction on the number of rows. -/
theorem length_stack (block : Nat) (rule : α) (rows : Nat → α) (n : Nat) :
    (stack block rule rows n).length + (if 0 < n ∧ n % block = 0 then 1 else 0) =
      n + n / block := by
  induction n with
  | zero => simp [stack]
  | succ n ih =>
    have hmark : 0 < n + 1 ∧ (n + 1) % block = 0 ↔ block ∣ n + 1 := by
      simp [Nat.dvd_iff_mod_eq_zero]
    rw [stack_succ, List.length_append, Nat.succ_div]
    simp only [hmark]
    split_ifs at ih ⊢ <;> simp only [List.length_cons, List.length_nil] <;> omega

/-- Without the rules the rows are left, in order. -/
theorem filter_stack {p : α → Prop} [DecidablePred p] (hrule : p rule)
    (hrows : ∀ r < n, ¬ p (rows r)) :
    (stack block rule rows n).filter (¬ p ·) = (List.range n).map rows := by
  rw [stack, List.filter_flatMap, ← List.flatMap_pure_eq_map]
  refine List.flatMap_congr fun r hr => ?_
  have hrow := hrows r (List.mem_range.mp hr)
  split_ifs <;> simp [hrule, hrow]

theorem getElem?_append_eq_some_iff {l m : List α} {i : Nat} : (l ++ m)[i]? = some line ↔
    l[i]? = some line ∨ ∃ j, i = l.length + j ∧ m[j]? = some line := by
  rw [List.getElem?_append]
  split_ifs with hi
  · refine (or_iff_left ?_).symm
    rintro ⟨j, rfl, -⟩
    omega
  · rw [List.getElem?_eq_none (Nat.le_of_not_lt hi)]
    constructor
    · exact fun h => .inr ⟨i - l.length, by omega, h⟩
    · rintro (h | ⟨j, rfl, h⟩)
      · cases h
      · rwa [Nat.add_sub_cancel_left]

/-- **What stands on which line:** the rows, each as far below its number as rules are above it, and
right above some of them the rules. Induction on the number of rows. -/
theorem getElem?_stack {i : Nat} : (stack block rule rows n)[i]? = some line ↔
    (∃ r < n, i = r + r / block ∧ line = rows r) ∨
      ∃ r < n, 0 < r ∧ block ∣ r ∧ i + 1 = r + r / block ∧ line = rule := by
  induction n with
  | zero => simp [stack]
  | succ n ih =>
    have hlength := length_stack block rule rows n
    have hnew : (∃ j, i = (stack block rule rows n).length + j ∧
        (if 0 < n ∧ n % block = 0 then [rule, rows n] else [rows n])[j]? = some line) ↔
        i = n + n / block ∧ line = rows n ∨
          0 < n ∧ block ∣ n ∧ i + 1 = n + n / block ∧ line = rule := by
      rw [← and_assoc (a := 0 < n), Nat.dvd_iff_mod_eq_zero]
      split_ifs at hlength ⊢ with hmark
      · constructor
        · rintro ⟨j, rfl, hj⟩
          match j with
          | 0 => exact .inr ⟨hmark, hlength, by simpa using hj.symm⟩
          | 1 => exact .inl ⟨hlength, by simpa using hj.symm⟩
          | j + 2 => cases hj
        · rintro (⟨rfl, rfl⟩ | ⟨-, hi, rfl⟩)
          · exact ⟨1, hlength.symm, rfl⟩
          · exact ⟨0, by omega, rfl⟩
      · constructor
        · rintro ⟨j, rfl, hj⟩
          match j with
          | 0 => exact .inl ⟨hlength, by simpa using hj.symm⟩
          | j + 1 => cases hj
        · rintro (⟨rfl, rfl⟩ | ⟨hmark', -⟩)
          · exact ⟨0, hlength.symm, rfl⟩
          · exact absurd hmark' hmark
    rw [stack_succ, getElem?_append_eq_some_iff, ih, hnew, Nat.exists_lt_succ_right,
      Nat.exists_lt_succ_right, or_or_or_comm]

end Stack

/-! ## Pictures -/

/-- The numbers in a row of the board. -/
def rowValues (s : Sudoku) (r : Nat) : List Nat :=
  (List.range s.size.side).map fun column => s.valueAt (r * s.size.side + column)

theorem length_rowValues (s : Sudoku) (r : Nat) : (s.rowValues r).length = s.size.side := by
  rw [rowValues, List.length_map, List.length_range]

/-- The numbers of a board are those of its rows one after the other. -/
theorem flatMap_rowValues (s : Sudoku) :
    (List.range s.size.side).flatMap s.rowValues = s.values := by
  have hrows := flatMap_range_rows (fun r column => s.valueAt (r * s.size.side + column))
    s.size.side_pos s.size.side
  simp only [Nat.div_add_mod'] at hrows
  exact hrows

theorem le_of_mem_rowValues (hrange : ∀ q, s.valueAt q ≤ s.size.side) (r : Nat) :
    ∀ v ∈ s.rowValues r, v ≤ s.size.side := by
  intro v hv
  obtain ⟨column, -, rfl⟩ := List.mem_map.mp hv
  exact hrange _

/-- The lines of the picture. -/
def drawn (s : Sudoku) : List (List Char) :=
  stack s.size.block (separator s.size).toList (fun r => (drawRow s.size (s.rowValues r)).toList)
    s.size.side

/-- A picture is its lines, each of which ends. -/
theorem toList_picture (s : Sudoku) : s.picture.toList = s.drawn.flatMap (· ++ ['\n']) := by
  have hlines : s.pictureLines.map String.toList = s.drawn := by
    rw [pictureLines, grid, zipIdx_map_range, List.flatMap_map, List.map_flatMap, drawn, stack]
    refine List.flatMap_congr fun r _ => ?_
    rw [apply_ite (List.map String.toList)]
    rfl
  rw [picture, String.toList_join, ← hlines, List.flatMap_map, List.flatMap_map]
  simp

/-- A line of the picture is a rule or a row. -/
theorem mem_drawn {line : List Char} (h : line ∈ s.drawn) :
    line = (separator s.size).toList ∨
      ∃ r, line = (drawRow s.size (s.rowValues r)).toList := by
  obtain ⟨i, hi⟩ := List.mem_iff_getElem?.mp h
  rcases getElem?_stack.mp hi with ⟨r, -, -, hline⟩ | ⟨r, -, -, -, -, hline⟩
  · exact .inr ⟨r, hline⟩
  · exact .inl hline

theorem notMem_drawn {line : List Char} (h : line ∈ s.drawn) : '\n' ∉ line ∧ '\r' ∉ line := by
  rcases mem_drawn h with rfl | ⟨r, rfl⟩
  · constructor <;> exact fun hc => absurd (isRule_separator _ hc) (by decide)
  · constructor <;> exact fun hc => absurd (mem_drawRow hc) (by decide)

/-- No line is lost when the picture is read, and none is cut in two. -/
theorem lines_picture (s : Sudoku) : Text.lines s.picture.toList = s.drawn := by
  rw [toList_picture, Text.lines_flatMap fun _ => notMem_drawn]

/-- How the lines of a picture are laid out. -/
structure Laid (s : Sudoku) (lines : List (List Char)) : Prop where
  /-- There are as many lines as rows, and one between two rows of boxes. -/
  length : lines.length = s.size.side + s.size.block - 1
  /-- No line is longer than another. -/
  flush : ∀ line ∈ lines, ∀ line' ∈ lines, line.length = line'.length
  /-- Row by row the numbers of the board can be read, and box by box in each row, between bars. -/
  row : ∀ r < s.size.side, ∃ line, lines[r + r / s.size.block]? = some line ∧ ¬ IsRule line ∧
    readRow? line = some (s.rowValues r) ∧
    (Text.cut (· = '|') line).mapM readRow? = some (Grid.chunks s.size.block (s.rowValues r))
  /-- The rules are the lines right above the first rows of boxes, but not above the topmost row. -/
  rule : ∀ i line, lines[i]? = some line → (IsRule line ↔
    ∃ r < s.size.side, 0 < r ∧ s.size.block ∣ r ∧ i + 1 = r + r / s.size.block)
  /-- Plus signs stand where bars do. -/
  marks : ∀ rule ∈ lines, IsRule rule → ∀ line ∈ lines, ¬ IsRule line → Aligned rule line

/-- All rules of a picture look the same. -/
theorem isRule_iff_of_mem_drawn {line : List Char} (h : line ∈ s.drawn) :
    IsRule line ↔ line = (separator s.size).toList := by
  constructor
  · intro hrule
    rcases mem_drawn h with hline | ⟨r, rfl⟩
    · exact hline
    · exact absurd hrule (not_isRule_drawRow (s.length_rowValues r))
  · rintro rfl
    exact isRule_separator

/-- Each row of a picture has its bars below the plus signs of the rules. -/
theorem aligned_of_mem_drawn (hrange : ∀ q, s.valueAt q ≤ s.size.side) {line : List Char}
    (h : line ∈ s.drawn) (hrow : ¬ IsRule line) : Aligned (separator s.size).toList line := by
  rcases mem_drawn h with rfl | ⟨r, rfl⟩
  · exact absurd isRule_separator hrow
  · exact aligned_drawRow (s.length_rowValues r) (le_of_mem_rowValues hrange r)

/-- So all its lines are equally long. -/
theorem length_of_mem_drawn (hrange : ∀ q, s.valueAt q ≤ s.size.side) {line : List Char}
    (h : line ∈ s.drawn) : line.length = (separator s.size).toList.length := by
  by_cases hrule : IsRule line
  · rw [(isRule_iff_of_mem_drawn h).mp hrule]
  · exact (List.Forall₂.length_eq (aligned_of_mem_drawn hrange h hrule)).symm

theorem laid_drawn (hrange : ∀ q, s.valueAt q ≤ s.size.side) : s.Laid s.drawn where
  length := by
    have hmark : 0 < s.size.side ∧ s.size.side % s.size.block = 0 :=
      ⟨s.size.side_pos, Nat.mul_mod_right _ _⟩
    have hblock : s.size.side / s.size.block = s.size.block :=
      Nat.mul_div_cancel_left _ s.size.block_pos
    have hlength := length_stack s.size.block (separator s.size).toList
      (fun r => (drawRow s.size (s.rowValues r)).toList) s.size.side
    rw [if_pos hmark, hblock] at hlength
    exact Nat.eq_sub_of_add_eq hlength
  flush line hline line' hline' := by
    rw [length_of_mem_drawn hrange hline, length_of_mem_drawn hrange hline']
  row r hr := by
    refine ⟨_, getElem?_stack.mpr (.inl ⟨r, hr, rfl, rfl⟩), ?_, ?_, ?_⟩
    · exact not_isRule_drawRow (s.length_rowValues r)
    · exact readRow?_drawRow (s.length_rowValues r) (le_of_mem_rowValues hrange r)
    · exact mapM_readRow?_cut_drawRow (s.length_rowValues r) (le_of_mem_rowValues hrange r)
  rule i line hline := by
    rw [isRule_iff_of_mem_drawn (List.mem_of_getElem? hline)]
    constructor
    · rintro rfl
      rcases getElem?_stack.mp hline with ⟨r, -, -, hrow⟩ | ⟨r, hr, hpos, hblock, hi, -⟩
      · -- no row looks like a rule
        exact absurd (hrow ▸ isRule_separator) (not_isRule_drawRow (s.length_rowValues r))
      · exact ⟨r, hr, hpos, hblock, hi⟩
    · rintro ⟨r, hr, hpos, hblock, hi⟩
      have hrule : s.drawn[i]? = some (separator s.size).toList :=
        getElem?_stack.mpr (.inr ⟨r, hr, hpos, hblock, hi, rfl⟩)
      exact Option.some.inj (hline.symm.trans hrule)
  marks rule hmem hrule line hline hrow := by
    rw [(isRule_iff_of_mem_drawn hmem).mp hrule]
    exact aligned_of_mem_drawn hrange hline hrow

/-- **The numbers of a board are read back from its picture.** -/
theorem readPicture?_picture (hrange : ∀ q, s.valueAt q ≤ s.size.side) :
    readPicture? s.picture.toList = some s.values := by
  have hrows : s.drawn.filter (¬ IsRule ·) = (List.range s.size.side).map fun r =>
      (drawRow s.size (s.rowValues r)).toList :=
    filter_stack isRule_separator fun r _ => not_isRule_drawRow (s.length_rowValues r)
  have hread : ((List.range s.size.side).map fun r =>
      (drawRow s.size (s.rowValues r)).toList).mapM readRow? =
      some ((List.range s.size.side).map s.rowValues) := by
    rw [mapM_eq_some_iff, List.forall₂_map_left_iff, List.forall₂_map_right_iff, List.forall₂_same]
    exact fun r _ => readRow?_drawRow (s.length_rowValues r) (le_of_mem_rowValues hrange r)
  rw [readPicture?, lines_picture, hrows, hread, ← flatMap_rowValues]
  rfl

/-- The numbers on a board tell the board. -/
theorem eq_of_values_eq {s s' : Sudoku} (h : s.values = s'.values) : s = s' := by
  have hcells : s.size.cells = s'.size.cells := by
    rw [← length_values, ← length_values, h]
  have hsize : s.size = s'.size := by
    have hfound := Size.ofCells?_cells s.size
    rw [hcells, Size.ofCells?_cells] at hfound
    exact (Option.some.inj hfound).symm
  obtain ⟨size, cells⟩ := s
  obtain ⟨size', cells'⟩ := s'
  cases hsize
  refine congrArg (Sudoku.mk size) (Vector.ext fun q hq => ?_)
  have hq' := congrArg (·[q]?) h
  simpa [values, positions, valueAt, hq] using hq'

/-- **A picture is aligned and loses nothing.** The picture of a board that a grid shows consists of
lines which each end with a line feed. They are as many as rows and blocks together, but one, and
equally long. Each row of the board stands on a line of its own, right above every row but the first
that starts a row of boxes is a rule, there are no other rules, and the plus signs of every rule
stand in the columns where every row has its bars. Reading the other lines, cut at bars and spaces,
with a dot for an empty cell, gives the numbers of the board row by row; so boards with the same
picture are the same. -/
theorem picture_lossless {g : Grid} {s : Sudoku} (h : ofGrid g = .ok s) :
    (∃ lines, s.picture.toList = lines.flatMap (· ++ ['\n']) ∧ (∀ line ∈ lines, '\n' ∉ line) ∧
      s.Laid lines) ∧
    readPicture? s.picture.toList = some s.values ∧
    ∀ g' s', ofGrid g' = .ok s' → s'.picture = s.picture → s' = s := by
  have hread : ∀ {g s}, ofGrid g = .ok s → readPicture? s.picture.toList = some s.values :=
    fun h => readPicture?_picture (valueAt_le_of_ofGrid h)
  refine ⟨⟨s.drawn, s.toList_picture, fun line hline => (notMem_drawn hline).1,
    laid_drawn (valueAt_le_of_ofGrid h)⟩, hread h, fun g' s' h' heq => eq_of_values_eq ?_⟩
  have hread' := hread h'
  rw [heq, hread h] at hread'
  exact (Option.some.inj hread').symm

/-- A large board, on every row of which stand numbers with one digit and with two. -/
theorem picture_lossless_mixed :
    ∃ s, ofGrid ⟨(List.range 16).map fun r => (List.range 16).map fun c => (r + c) % 17⟩ = .ok s ∧
      s.pictureLines[3]? = some "  3  4  5  6 |  7  8  9 10 | 11 12 13 14 | 15 16  .  1 " ∧
      s.pictureLines[4]? = some "-------------+-------------+-------------+-------------" ∧
      (∃ lines, s.picture.toList = lines.flatMap (· ++ ['\n']) ∧ lines.length = 19 ∧ s.Laid lines) ∧
      readPicture? s.picture.toList = some s.values := by
  obtain ⟨s, hs⟩ : ∃ s, ofGrid ⟨(List.range 16).map fun r =>
      (List.range 16).map fun c => (r + c) % 17⟩ = .ok s := ⟨_, rfl⟩
  obtain ⟨⟨lines, htext, -, hlaid⟩, hread, -⟩ := picture_lossless hs
  have hlength := hlaid.length
  cases hs
  exact ⟨_, rfl, by decide +kernel, by decide +kernel, ⟨lines, htext, hlength, hlaid⟩, hread⟩

end Sudoku

end ExactCover
