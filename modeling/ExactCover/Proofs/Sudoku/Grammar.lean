import ExactCover.Proofs.Sudoku.Reading
import ExactCover.Proofs.Text.Refusal

/-!
# Which texts list boards

What may stand on a line is said here without the reader: numbers with blanks between them, or one
character for each cell. A line shows a board if its numbers are as many as the cells of a board,
and none is larger than the largest digit. Any other line has a fault, and of several faults the
first one: it cannot be decoded at some character or token, or it has the wrong number of cells, or
one of its numbers is too large. This is the order in which a reader comes upon them.

A grid is cut out of the cells of a line only where they are as many as those of a board. So it is
always a square of a supported size, and numbers that are too large are all that can be wrong with
it.

* **`Sudoku.Decodes`**, **`Sudoku.Undecodable`**: the numbers on a line, and why it has none.
* **`Sudoku.Shows`**, **`Sudoku.LineFault`**: the board on a line, and why it shows none.
* **`Sudoku.shows_or_fault`**: there is one or the other on every line.
* **`Sudoku.readLine_eq_ok_iff`**, **`Sudoku.readLine_eq_error_iff`**: one line is read as that.
* **`Sudoku.read_exact`**: a text is read if every line that is neither blank nor a comment shows a
  board, and else it is refused for the first one that does not.
-/

namespace ExactCover

/-! ## Numerals -/

namespace Text

/-- Whether a token writes a number: digits, with or without a plus sign in front, of a value that
fits into 64 bits. -/
def IsNumeral (token : List Char) (n : Nat) : Prop :=
  ∃ digits, (token = digits ∨ token = '+' :: digits) ∧ digits ≠ [] ∧
    (∀ c ∈ digits, c.isDigit = true) ∧ Nat.ofDigitChars 10 digits 0 = n ∧ n < UInt64.size

theorem number?_eq_some_iff {token : List Char} {n : Nat} :
    number? token = some n ↔ IsNumeral token n := by
  unfold number?
  split
  · next cs =>
    rw [digits?_eq_some_iff]
    constructor
    · exact fun h => ⟨cs, .inr rfl, h⟩
    · rintro ⟨digits, rfl | heq, h⟩
      · -- a plus sign is no digit
        cases h.2.1 '+' List.mem_cons_self
      · cases heq
        exact h
  · next hplus =>
    rw [digits?_eq_some_iff]
    constructor
    · exact fun h => ⟨token, .inl rfl, h⟩
    · rintro ⟨digits, rfl | rfl, h⟩
      · exact h
      · exact absurd rfl (hplus digits)

end Text

namespace Sudoku

variable {number : Nat} {line : List Char} {cells : List Nat} {s : Sudoku} {e : ReadError}

/-! ## The numbers on a line -/

/-- Whether a character stands for a cell with this number. -/
def IsCell (c : Char) (v : Nat) : Prop :=
  c = '.' ∧ v = 0 ∨ c.isDigit = true ∧ v = c.toNat - '0'.toNat

theorem cellValue?_eq_some_iff {c : Char} {v : Nat} : cellValue? c = some v ↔ IsCell c v := by
  unfold cellValue? IsCell Text.digitValue
  split_ifs with hdot hdigit
  · have hdigit : '.'.isDigit = false := rfl
    simp [hdot, hdigit, eq_comm]
  · simp [hdot, hdigit, eq_comm]
  · simp [hdot, hdigit]

/-- The numbers on a line: those of its tokens if there is a blank on it, and else those of its
characters. -/
inductive Decodes (line : List Char) (cells : List Nat) : Prop
  | characters : (∀ c ∈ line, Text.isBlank c = false) → List.Forall₂ IsCell line cells →
      Decodes line cells
  | tokens {tokens : List (List Char)} : (∃ c ∈ line, Text.isBlank c = true) →
      Text.Spaced tokens line → List.Forall₂ Text.IsNumeral tokens cells → Decodes line cells

/-- What is wrong with a line that has no numbers on it: the first character that stands for no
cell, or the first token that writes no number. -/
inductive Undecodable (number : Nat) (line : List Char) : ReadError → Prop
  | character {before after : List Char} {c : Char} : (∀ d ∈ line, Text.isBlank d = false) →
      line = before ++ c :: after → (∀ d ∈ before, ∃ v, IsCell d v) → (¬ ∃ v, IsCell c v) →
      Undecodable number line (.invalidCharacter number (before.length + 1) c)
  | token {before after : List (List Char)} {token : List Char} :
      (∃ c ∈ line, Text.isBlank c = true) → Text.Spaced (before ++ token :: after) line →
      (∀ t ∈ before, ∃ n, Text.IsNumeral t n) → (¬ ∃ n, Text.IsNumeral token n) →
      Undecodable number line (.invalidNumber number (String.ofList token))

/-! ### Reading them -/

def readCharacter (number : Nat) (x : Char × Nat) : Except ReadError Nat :=
  match cellValue? x.1 with
  | some v => .ok v
  | none => .error (.invalidCharacter number x.2 x.1)

def readToken (number : Nat) (token : List Char) : Except ReadError Nat :=
  match Text.number? token with
  | some v => .ok v
  | none => .error (.invalidNumber number (String.ofList token))

theorem readCharacter_eq_ok_iff {x : Char × Nat} {v : Nat} :
    readCharacter number x = .ok v ↔ IsCell x.1 v := by
  rw [← cellValue?_eq_some_iff, readCharacter]
  cases cellValue? x.1 <;> simp

theorem readCharacter_eq_error_iff {x : Char × Nat} : readCharacter number x = .error e ↔
    (¬ ∃ v, IsCell x.1 v) ∧ .invalidCharacter number x.2 x.1 = e := by
  simp only [← cellValue?_eq_some_iff, readCharacter]
  cases cellValue? x.1 <;> simp

theorem readToken_eq_ok_iff {token : List Char} {v : Nat} :
    readToken number token = .ok v ↔ Text.IsNumeral token v := by
  rw [← Text.number?_eq_some_iff, readToken]
  cases Text.number? token <;> simp

theorem readToken_eq_error_iff {token : List Char} : readToken number token = .error e ↔
    (¬ ∃ v, Text.IsNumeral token v) ∧ .invalidNumber number (String.ofList token) = e := by
  simp only [← Text.number?_eq_some_iff, readToken]
  cases Text.number? token <;> simp

theorem readCharacters_eq (number : Nat) (line : List Char) :
    readCharacters number line = (line.zipIdx 1).mapM (readCharacter number) := rfl

theorem readNumbers_eq (number : Nat) (line : List Char) :
    readNumbers number line = (Text.words line).mapM (readToken number) := rfl

theorem solid_iff : (∀ c ∈ line, Text.isBlank c = false) ↔ ¬ ∃ c ∈ line, Text.isBlank c = true := by
  simp

theorem readCells_of_blank (h : ∃ c ∈ line, Text.isBlank c = true) :
    readCells number line = readNumbers number line := by
  rw [readCells, if_pos (List.any_eq_true.mpr h)]

theorem readCells_of_solid (h : ∀ c ∈ line, Text.isBlank c = false) :
    readCells number line = readCharacters number line := by
  rw [readCells, if_neg (by simpa using h)]

/-- **The numbers on a line are read.** -/
theorem readCells_eq_ok_iff : readCells number line = .ok cells ↔ Decodes line cells := by
  by_cases hblank : ∃ c ∈ line, Text.isBlank c = true
  · rw [readCells_of_blank hblank, readNumbers_eq, mapM_eq_ok_iff]
    simp only [readToken_eq_ok_iff]
    constructor
    · exact fun hcells => .tokens hblank (Text.spaced_words line) hcells
    · rintro (⟨hsolid, -⟩ | ⟨-, htokens, hcells⟩)
      · exact absurd hblank (solid_iff.mp hsolid)
      · rwa [htokens.words_eq]
  · have hsolid := solid_iff.mpr hblank
    rw [readCells_of_solid hsolid, readCharacters_eq, mapM_eq_ok_iff]
    simp only [readCharacter_eq_ok_iff]
    rw [← List.forall₂_map_left_iff, List.zipIdx_map_fst]
    constructor
    · exact fun hcells => .characters hsolid hcells
    · rintro (⟨-, hcells⟩ | ⟨hblank', -⟩)
      · exact hcells
      · exact absurd hblank' hblank

/-- **A line that cannot be decoded is refused for its first bad character or token.** -/
theorem readCells_eq_error_iff : readCells number line = .error e ↔ Undecodable number line e := by
  by_cases hblank : ∃ c ∈ line, Text.isBlank c = true
  · rw [readCells_of_blank hblank, readNumbers_eq, mapM_eq_error_iff]
    simp only [readToken_eq_ok_iff, readToken_eq_error_iff]
    constructor
    · rintro ⟨before, token, after, hwords, hbefore, htoken, rfl⟩
      exact .token hblank (hwords ▸ Text.spaced_words line) hbefore htoken
    · rintro (⟨hsolid, -⟩ | ⟨-, htokens, hbefore, htoken⟩)
      · exact absurd hblank (solid_iff.mp hsolid)
      · exact ⟨_, _, _, htokens.words_eq, hbefore, htoken, rfl⟩
  · have hsolid := solid_iff.mpr hblank
    rw [readCells_of_solid hsolid, readCharacters_eq, mapM_eq_error_iff]
    simp only [readCharacter_eq_ok_iff, readCharacter_eq_error_iff]
    constructor
    · rintro ⟨before, x, after, hsplit, hbefore, hx, rfl⟩
      obtain ⟨front, back, rfl, rfl, hback⟩ := List.zipIdx_eq_append_iff.mp hsplit
      obtain ⟨c, back, rfl, rfl, -⟩ := List.zipIdx_eq_cons_iff.mp hback.symm
      rw [Nat.add_comm]
      refine .character hsolid rfl (fun d hd => ?_) hx
      rw [← List.zipIdx_map_fst 1 front] at hd
      obtain ⟨y, hy, rfl⟩ := List.mem_map.mp hd
      exact hbefore y hy
    · rintro (⟨-, rfl, hbefore, hc⟩ | ⟨hblank', -⟩)
      · refine ⟨_, _, _, List.zipIdx_append.trans (congrArg _ List.zipIdx_cons), fun y hy => ?_, hc,
          ?_⟩
        · exact hbefore _ (List.fst_mem_of_mem_zipIdx hy)
        · rw [Nat.add_comm]
      · exact absurd hblank' hblank

/-! ## The board on a line -/

theorem zipIdx_map_range {α : Type} (f : Nat → α) (n : Nat) :
    ((List.range n).map f).zipIdx = (List.range n).map fun q => (f q, q) :=
  List.ext_getElem (by simp) (by simp)

/-- Rows of one width are listed one after the other. Induction on the number of rows. -/
theorem flatMap_range_rows {α : Type} (f : Nat → Nat → α) {n : Nat} (hn : 0 < n) (m : Nat) :
    ((List.range m).flatMap fun r => (List.range n).map (f r)) =
      (List.range (m * n)).map fun q => f (q / n) (q % n) := by
  induction m with
  | zero => simp
  | succ m ih =>
    have hrow : (List.range n).map (f m) =
        ((List.range n).map (m * n + ·)).map fun q => f (q / n) (q % n) := by
      rw [List.map_map]
      refine List.map_congr_left fun c hc => ?_
      have hc : c < n := List.mem_range.mp hc
      have hdiv : (m * n + c) / n = m := by
        rw [Nat.mul_comm, Nat.mul_add_div hn, Nat.div_eq_of_lt hc, Nat.add_zero]
      have hmod : (m * n + c) % n = c := by rw [Nat.mul_comm, Nat.mul_add_mod, Nat.mod_eq_of_lt hc]
      simp only [Function.comp_apply, hdiv, hmod]
    rw [List.range_succ, List.flatMap_append, ih, Nat.succ_mul, List.range_add, List.map_append,
      List.flatMap_singleton, hrow]

/-- The cells of a grid are the numbers on the board, each with its row and its column. -/
theorem cells_grid (s : Sudoku) : s.grid.cells =
    s.values.zipIdx.map fun x => (x.2 / s.size.side, x.2 % s.size.side, x.1) := by
  have hrows := flatMap_range_rows (fun r c => (r, c, s.valueAt (r * s.size.side + c)))
    s.size.side_pos s.size.side
  simp only [Grid.cells, grid, zipIdx_map_range, List.flatMap_map, List.map_map, Function.comp_def,
    values, positions] at hrows ⊢
  rw [hrows]
  simp [Size.cells, Nat.div_add_mod']

/-- Any numbers, as many as a board has cells, are those on some board. -/
theorem exists_values_eq {size : Size} (h : cells.length = size.cells) :
    ∃ s : Sudoku, s.size = size ∧ s.values = cells := by
  refine ⟨⟨size, ⟨cells.toArray, by simpa using h⟩⟩, rfl, List.ext_getElem ?_ fun q hq hq' => ?_⟩
  · exact (length_values _).trans h.symm
  · simp [values, positions, valueAt, hq']

theorem forall_valueAt_iff :
    (∀ q, s.valueAt q ≤ s.size.side) ↔ ∀ v ∈ s.values, v ≤ s.size.side := by
  constructor
  · exact fun hrange v hv => le_of_mem_values hrange hv
  · intro hrange q
    by_cases hq : s.valueAt q = 0
    · simp [hq]
    · exact hrange _ (List.mem_map.mpr ⟨q, List.mem_range.mpr (lt_of_valueAt hq), rfl⟩)

/-- A number that is too large is reported with its row and its column, the first one in the order
of the cells. -/
theorem ofGrid_grid_of_large {before after : List Nat} {v : Nat}
    (hvalues : s.values = before ++ v :: after) (hbefore : ∀ w ∈ before, w ≤ s.size.side)
    (hv : s.size.side < v) :
    ofGrid s.grid = .error (.valueOutOfRange (before.length / s.size.side + 1)
      (before.length % s.size.side + 1) v) := by
  have hsize : Size.ofSide? s.grid.rows.length = some s.size := by
    rw [grid, List.length_map, List.length_range, Size.ofSide?_side]
  have hragged : (s.grid.rows.zipIdx.find? fun x => x.1.length ≠ s.size.side) = none := by
    refine List.find?_eq_none.mpr fun x hx => ?_
    obtain ⟨r, -, hrow⟩ := List.mem_map.mp (List.fst_mem_of_mem_zipIdx hx)
    simp [← hrow]
  have hlarge : (s.grid.cells.find? fun x => s.size.side < x.2.2) =
      some (before.length / s.size.side, before.length % s.size.side, v) := by
    rw [cells_grid, hvalues, List.zipIdx_append, List.zipIdx_cons, List.map_append, List.map_cons,
      Nat.zero_add]
    refine List.find?_eq_some_iff_append.mpr ⟨by simpa using hv, _, _, rfl, fun x hx => ?_⟩
    obtain ⟨y, hy, rfl⟩ := List.mem_map.mp hx
    simpa using hbefore _ (List.fst_mem_of_mem_zipIdx hy)
  unfold ofGrid
  rw [hsize]
  dsimp only
  rw [hragged]
  dsimp only
  rw [hlarge]

/-- Whether a line shows a board: its numbers are those of the cells, and none is larger than the
largest digit. -/
structure Shows (line : List Char) (s : Sudoku) : Prop where
  decodes : Decodes line s.values
  range : ∀ v ∈ s.values, v ≤ s.size.side

/-- What is wrong with a line that shows no board: it has no numbers on it, or not as many as any
board has cells, or the first number that is larger than the largest digit of the board with so many
cells. -/
inductive LineFault (number : Nat) (line : List Char) : ReadError → Prop
  | undecodable {e : ReadError} : Undecodable number line e → LineFault number line e
  | count {cells : List Nat} : Decodes line cells → cells.length ∉ [16, 81, 256, 625] →
      LineFault number line (.unsupportedLength number cells.length)
  | value {size : Size} {before after : List Nat} {v : Nat} :
      Decodes line (before ++ v :: after) → (before ++ v :: after).length = size.cells →
      (∀ w ∈ before, w ≤ size.side) → size.side < v →
      LineFault number line (.board number (.valueOutOfRange (before.length / size.side + 1)
        (before.length % size.side + 1) v))

theorem ofCells?_eq_none_iff {n : Nat} : Size.ofCells? n = none ↔ n ∉ [16, 81, 256, 625] := by
  have hall : Size.all.map Size.cells = [16, 81, 256, 625] := by decide
  rw [Size.ofCells?, List.find?_eq_none, ← hall]
  simp [eq_comm]

theorem exists_first_large (n : Nat) (cells : List Nat) : (∀ v ∈ cells, v ≤ n) ∨
    ∃ before v after, cells = before ++ v :: after ∧ (∀ w ∈ before, w ≤ n) ∧ n < v := by
  cases hfind : cells.find? (n < ·) with
  | none => exact .inl (by simpa using hfind)
  | some v =>
    obtain ⟨hv, before, after, rfl, hbefore⟩ := List.find?_eq_some_iff_append.mp hfind
    exact .inr ⟨before, v, after, rfl, by simpa using hbefore, by simpa using hv⟩

theorem readLine_of_decodes (h : Decodes line s.values) (number : Nat) :
    readLine number line = (ofGrid s.grid).mapError (.board number) := by
  simp only [readLine, readCells_eq_ok_iff.mpr h, ok_bind, length_values, Size.ofCells?_cells,
    ofCells_values]

theorem Shows.readLine_eq (h : Shows line s) (number : Nat) : readLine number line = .ok s := by
  rw [readLine_of_decodes h.decodes, ofGrid_grid (forall_valueAt_iff.mpr h.range)]
  rfl

theorem LineFault.readLine_eq (h : LineFault number line e) : readLine number line = .error e := by
  cases h with
  | undecodable h => rw [readLine, readCells_eq_error_iff.mpr h, error_bind]
  | count hcells hcount =>
    simp only [readLine, readCells_eq_ok_iff.mpr hcells, ok_bind, ofCells?_eq_none_iff.mpr hcount]
    rfl
  | value hcells hlength hbefore hv =>
    obtain ⟨s, rfl, hvalues⟩ := exists_values_eq hlength
    rw [← hvalues] at hcells
    rw [readLine_of_decodes hcells, ofGrid_grid_of_large hvalues hbefore hv]
    rfl

/-- Every line shows a board or has a fault. -/
theorem shows_or_fault (number : Nat) (line : List Char) :
    (∃ s, Shows line s) ∨ ∃ e, LineFault number line e := by
  cases hcells : readCells number line with
  | error e => exact .inr ⟨e, .undecodable (readCells_eq_error_iff.mp hcells)⟩
  | ok cells =>
    have hcells := readCells_eq_ok_iff.mp hcells
    cases hsize : Size.ofCells? cells.length with
    | none => exact .inr ⟨_, .count hcells (ofCells?_eq_none_iff.mp hsize)⟩
    | some size =>
      obtain ⟨s, rfl, rfl⟩ := exists_values_eq (Size.cells_ofCells? hsize).symm
      rcases exists_first_large s.size.side s.values with hrange |
        ⟨before, v, after, hsplit, hbefore, hv⟩
      · exact .inl ⟨s, hcells, hrange⟩
      · rw [hsplit] at hcells
        exact .inr ⟨_, .value hcells (hsplit ▸ length_values s) hbefore hv⟩

/-- **A line is read as the board that it shows.** -/
theorem readLine_eq_ok_iff : readLine number line = .ok s ↔ Shows line s := by
  refine ⟨fun h => ?_, fun h => h.readLine_eq number⟩
  rcases shows_or_fault number line with ⟨t, ht⟩ | ⟨e, he⟩
  · rw [ht.readLine_eq] at h
    cases h
    exact ht
  · rw [he.readLine_eq] at h
    cases h

/-- **A line that shows no board is refused for its fault.** -/
theorem readLine_eq_error_iff : readLine number line = .error e ↔ LineFault number line e := by
  refine ⟨fun h => ?_, fun h => h.readLine_eq⟩
  rcases shows_or_fault number line with ⟨t, ht⟩ | ⟨e', he⟩
  · rw [ht.readLine_eq] at h
    cases h
  · rw [he.readLine_eq] at h
    cases h
    exact he

/-! ## Whole texts -/

theorem read_eq (text : String) : read text =
    (Text.keptLines isPuzzleLine 1 (Text.lines text.toList)).mapM fun kept =>
      readLine kept.1 kept.2 := by
  rw [read, puzzleLines, Text.keptLines_lines]

/-- The lines that are read are those that are neither blank nor comments. -/
theorem map_snd_keptLines (number : Nat) (ls : List (List Char)) :
    (Text.keptLines isPuzzleLine number ls).map Prod.snd =
      (ls.filter (¬ Text.IsIdle ['#', 'c'] ·)).map Text.trim := by
  rw [Text.map_snd_keptLines, List.filter_map]
  refine congrArg _ (List.filter_congr fun line _ => ?_)
  rw [Bool.eq_iff_iff, decide_eq_true_iff]
  exact isPuzzleLine_trim

/-- **Texts are read line by line.** -/
theorem read_eq_ok_iff {text : String} {boards : List Sudoku} : read text = .ok boards ↔
    List.Forall₂ Shows
      (((Text.lines text.toList).filter (¬ Text.IsIdle ['#', 'c'] ·)).map Text.trim) boards := by
  rw [read_eq, mapM_eq_ok_iff, ← map_snd_keptLines 1, List.forall₂_map_left_iff]
  simp only [readLine_eq_ok_iff]

/-- **A text is refused for the first line to be read that shows no board,** and the number of that
line counts all lines. -/
theorem read_eq_error_iff {text : String} : read text = .error e ↔ ∃ before line after,
    Text.lines text.toList = before ++ line :: after ∧
    (∀ l ∈ before, ¬ Text.IsIdle ['#', 'c'] l → ∃ s, Shows (Text.trim l) s) ∧
    ¬ Text.IsIdle ['#', 'c'] line ∧ LineFault (before.length + 1) (Text.trim line) e := by
  rw [read_eq, Text.mapM_keptLines_eq_error_iff]
  simp only [readLine_eq_ok_iff, readLine_eq_error_iff, Nat.add_comm 1,
    Text.forall_mem_keptLines (P := fun line => ∃ s, Shows line s), isPuzzleLine_trim]

/-- The grid on a line is never refused for its shape. -/
theorem valueOutOfRange_of_readLine {n : Nat} {flaw : Flaw}
    (h : readLine number line = .error (.board n flaw)) :
    ∃ row column value, flaw = .valueOutOfRange row column value := by
  rcases readLine_eq_error_iff.mp h with h | h | h
  · cases h
  · exact ⟨_, _, _, rfl⟩

/-- **Which texts are read, and for what the others are refused.** A text is read if and only if
each of its lines that is neither blank nor a comment shows a board, and then as these boards in
order. Otherwise the error is the fault of the first of these lines that shows none, with its number
among all lines of the text. A comment starts with `#` or `c`, maybe after some blanks. A grid that
was cut out of a line never has the wrong size or the wrong shape. -/
theorem read_exact (text : String) :
    (∀ boards, read text = .ok boards ↔
      List.Forall₂ Shows
        (((Text.lines text.toList).filter (¬ Text.IsIdle ['#', 'c'] ·)).map Text.trim) boards) ∧
    (∀ e, read text = .error e ↔ ∃ before line after,
      Text.lines text.toList = before ++ line :: after ∧
      (∀ l ∈ before, ¬ Text.IsIdle ['#', 'c'] l → ∃ s, Shows (Text.trim l) s) ∧
      ¬ Text.IsIdle ['#', 'c'] line ∧
      LineFault (before.length + 1) (Text.trim line) e) ∧
    ∀ number line n flaw, readLine number line = .error (.board n flaw) →
      ∃ row column value, flaw = .valueOutOfRange row column value :=
  ⟨fun _ => read_eq_ok_iff, fun _ => read_eq_error_iff,
    fun _ _ _ _ h => valueOutOfRange_of_readLine h⟩

end Sudoku

end ExactCover
