import ExactCover.Proofs.Steps
import ExactCover.Proofs.Text.Numerals
import ExactCover.Sudoku.Basic
import Mathlib.Data.List.Nodup
import Mathlib.Data.List.Perm.Basic

/-!
# Keys can be read back

A constraint is known by its key, and a placement by its keys in any order. Numbers are read back as
long as they fit into 64 bits, which those of every board do.

Some keys are enough to tell a placement: all of them must be keys of its constraints, and they must
mention its row, its column and its digit. Which digit that is does not matter, so a placement that
is told may be one with a digit that the board does not have.

* **`Constraint.SpeltBy`**: the keys of a constraint, with zeros in front of the numbers or without.
* **`Constraint.ofKey?_eq_some_iff`**: a key is read as the constraint that it spells.
* **`Constraint.ofKey?_key`**: so a constraint is read back from its key.
* **`Constraint.key_injective`**: so different constraints have different keys.
* **`Placement.Told`, `Placement.ToldBy`**: a placement that is told by constraints, and by keys.
* **`Placement.ofKeys?_eq_some_iff`**: what is read from keys is the placement that they tell.
* **`Placement.ofKeys?_perm`**: so a placement is read back from its keys, in whatever order.
-/

namespace ExactCover

namespace Sudoku

/-! ## Constraints -/

namespace Constraint

/-- Whether the numbers of a constraint can be read. -/
def Fits : Constraint → Prop
  | cell a b | inRow a b | inColumn a b | inBox a b => a ≤ Text.largest ∧ b ≤ Text.largest

/-- **A field is a tag and the digits of a number,** after some zeros, up to the next character that
is no digit. -/
theorem field?_eq_some_iff {cs rest : List Char} {tag : Char} {n : Nat} :
    field? cs = some ((tag, n), rest) ↔ n ≤ Text.largest ∧
      (∃ zeros, cs = tag :: (Text.padded zeros n ++ rest)) ∧
      ∀ c ∈ rest.head?, c.isDigit = false := by
  constructor
  · intro h
    cases cs with
    | nil => cases h
    | cons tag' cs =>
      obtain ⟨n', hn, heq⟩ := Option.bind_eq_some_iff.mp h
      cases heq
      obtain ⟨hfits, zeros, hzeros⟩ := Text.digits?_eq_some_iff_padded.mp hn
      refine ⟨hfits, ⟨zeros, ?_⟩, fun c hc => ?_⟩
      · rw [← hzeros, List.takeWhile_append_dropWhile]
      · have hnot := List.head?_dropWhile_not Char.isDigit cs
        rw [Option.mem_def.mp hc] at hnot
        simpa using hnot
  · rintro ⟨hfits, ⟨zeros, rfl⟩, hrest⟩
    have hdigits : ∀ c ∈ Text.padded zeros n, c.isDigit = true := fun _ =>
      Text.isDigit_of_mem_padded
    have hread : Text.digits? (Text.padded zeros n) = some n :=
      Text.digits?_eq_some_iff_padded.mpr ⟨hfits, zeros, rfl⟩
    have htake : rest.takeWhile Char.isDigit = [] := by
      cases rest with
      | nil => rfl
      | cons c rest => simp [hrest c rfl]
    have hdrop : rest.dropWhile Char.isDigit = rest := by
      cases rest with
      | nil => rfl
      | cons c rest => simp [hrest c rfl]
    simp [field?, List.takeWhile_append_of_pos hdigits, List.dropWhile_append_of_pos hdigits,
      htake, hdrop, hread]

/-- The two tags of a key. -/
def tags : Constraint → Char × Char
  | cell .. => ('R', 'C')
  | inRow .. => ('R', '#')
  | inColumn .. => ('C', '#')
  | inBox .. => ('B', '#')

/-- The two numbers of a key. -/
def numbers : Constraint → Nat × Nat
  | cell a b | inRow a b | inColumn a b | inBox a b => (a, b)

/-- A key has the tags and the numbers of a constraint, with any zeros in front of the numbers. -/
structure SpeltBy (k : Constraint) (key : String) : Prop where
  fits : k.Fits
  spelt : ∃ zeros zeros', key.toList = k.tags.1 :: (Text.padded zeros k.numbers.1 ++
    k.tags.2 :: Text.padded zeros' k.numbers.2)

theorem fits_iff (k : Constraint) :
    k.Fits ↔ k.numbers.1 ≤ Text.largest ∧ k.numbers.2 ≤ Text.largest := by
  cases k <;> rfl

theorem speltBy_key {k : Constraint} (h : k.Fits) : k.SpeltBy k.key := by
  refine ⟨h, 0, 0, ?_⟩
  cases k <;> simp [key, tags, numbers, Text.padded]

/-- **A key is read as the constraint that it spells.** -/
theorem ofKey?_eq_some_iff {key : String} {k : Constraint} :
    ofKey? key = some k ↔ k.SpeltBy key := by
  constructor
  · intro h
    obtain ⟨⟨⟨tag, n⟩, rest⟩, hfirst, h⟩ := Option.bind_eq_some_iff.mp h
    obtain ⟨⟨⟨tag', n'⟩, rest'⟩, hsecond, h⟩ := Option.bind_eq_some_iff.mp h
    obtain ⟨hn, ⟨zeros, hkey⟩, -⟩ := field?_eq_some_iff.mp hfirst
    obtain ⟨hn', ⟨zeros', hrest⟩, -⟩ := field?_eq_some_iff.mp hsecond
    rw [hrest] at hkey
    dsimp only at h
    -- nothing follows the second field
    split at h <;> cases h <;> rw [List.append_nil] at hkey <;>
      exact ⟨⟨hn, hn'⟩, zeros, zeros', hkey⟩
  · rintro ⟨hfits, zeros, zeros', hkey⟩
    obtain ⟨hn, hn'⟩ := (fits_iff k).mp hfits
    have htag : k.tags.2.isDigit = false := by cases k <;> rfl
    have hfirst : field? key.toList =
        some ((k.tags.1, k.numbers.1), k.tags.2 :: Text.padded zeros' k.numbers.2) :=
      field?_eq_some_iff.mpr ⟨hn, ⟨zeros, hkey⟩, by simpa using htag⟩
    have hsecond : field? (k.tags.2 :: Text.padded zeros' k.numbers.2) =
        some ((k.tags.2, k.numbers.2), []) :=
      field?_eq_some_iff.mpr ⟨hn', ⟨zeros', by simp⟩, by simp⟩
    simp only [ofKey?, hfirst, hsecond, Option.bind_eq_bind, Option.bind_some]
    cases k <;> rfl

/-- **A constraint is read back from its key.** -/
theorem ofKey?_key {k : Constraint} (h : k.Fits) : ofKey? k.key = some k :=
  ofKey?_eq_some_iff.mpr (speltBy_key h)

/-- **Different constraints have different keys.** -/
theorem key_injective {k k' : Constraint} (hk : k.Fits) (hk' : k'.Fits) (h : k.key = k'.key) :
    k = k' := by
  have hread := ofKey?_key hk
  rw [h, ofKey?_key hk'] at hread
  exact (Option.some.inj hread).symm

/-- Constraints are read back from their keys. -/
theorem forall₂_ofKey? {cs : List Constraint} (h : ∀ k ∈ cs, k.Fits) :
    List.Forall₂ (fun key k => ofKey? key = some k) (cs.map key) cs :=
  List.forall₂_map_left_iff.mpr (List.forall₂_same.mpr fun k hk => ofKey?_key (h k hk))

end Constraint

/-! ## Placements -/

namespace Size

theorem side_le_largest (size : Size) : size.side ≤ Text.largest := by cases size <;> decide

/-- The cell in a row and a column is on the board, and is in that row and that column. -/
theorem div_mod_position {size : Size} {row column : Nat} (hrow : row < size.side)
    (hcolumn : column < size.side) :
    row * size.side + column < size.cells ∧ (row * size.side + column) / size.side = row ∧
      (row * size.side + column) % size.side = column := by
  refine ⟨?_, ?_, ?_⟩
  · calc row * size.side + column
        < row * size.side + size.side := Nat.add_lt_add_left hcolumn _
      _ = (row + 1) * size.side := (Nat.succ_mul _ _).symm
      _ ≤ size.side * size.side := Nat.mul_le_mul_right _ hrow
  · rw [Nat.mul_comm, Nat.mul_add_div size.side_pos, Nat.div_eq_of_lt hcolumn, Nat.add_zero]
  · rw [Nat.mul_comm, Nat.mul_add_mod, Nat.mod_eq_of_lt hcolumn]

theorem boxOf_lt {size : Size} {row column : Nat} (hrow : row < size.side)
    (hcolumn : column < size.side) : size.boxOf row column < size.side := by
  have hr : row / size.block < size.block := Nat.div_lt_of_lt_mul hrow
  have hc : column / size.block < size.block := Nat.div_lt_of_lt_mul hcolumn
  calc row / size.block * size.block + column / size.block
      < row / size.block * size.block + size.block := Nat.add_lt_add_left hc _
    _ = (row / size.block + 1) * size.block := (Nat.succ_mul _ _).symm
    _ ≤ size.block * size.block := Nat.mul_le_mul_right _ hr

end Size

namespace Placement

variable {p : Placement}

theorem valid_iff : p.isValid = true ↔
    p.position < p.size.cells ∧ 1 ≤ p.value ∧ p.value ≤ p.size.side := by
  simp [isValid, and_assoc]

theorem row_lt (h : p.isValid = true) : p.row < p.size.side :=
  Nat.div_lt_of_lt_mul (valid_iff.mp h).1

theorem column_lt : p.column < p.size.side := Nat.mod_lt _ p.size.side_pos

theorem box_lt (h : p.isValid = true) : p.box < p.size.side := Size.boxOf_lt (row_lt h) column_lt

/-- A placement is known by its row, its column and its digit. -/
theorem ofCell_row_column : ofCell p.size p.row p.column p.value = p := by
  have hposition : p.row * p.size.side + p.column = p.position := by
    rw [Nat.mul_comm]
    exact Nat.div_add_mod _ _
  simp [ofCell, hposition]

theorem fits_of_mem (h : p.isValid = true) {k : Constraint} (hk : k ∈ p.constraints) : k.Fits := by
  have hside := p.size.side_le_largest
  have hrow := row_lt h
  have hcolumn := column_lt (p := p)
  have hbox := box_lt h
  have hvalue := (valid_iff.mp h).2.2
  simp only [constraints, List.mem_cons, List.not_mem_nil, or_false] at hk
  rcases hk with rfl | rfl | rfl | rfl <;> constructor <;> omega

/-! ### What constraints tell -/

theorem unanimous?_eq_some_iff {l : List Nat} {n : Nat} :
    unanimous? l = some n ↔ n ∈ l ∧ ∀ x ∈ l, x = n := by
  cases l with
  | nil => simp [unanimous?]
  | cons x l =>
    simp only [unanimous?, Option.ite_none_right_eq_some, Option.some.injEq, List.all_eq_true,
      decide_eq_true_eq, List.forall_mem_cons]
    constructor
    · rintro ⟨hall, rfl⟩
      exact ⟨List.mem_cons_self, rfl, hall⟩
    · rintro ⟨-, rfl, hall⟩
      exact ⟨hall, rfl⟩

theorem unanimous?_filterMap {mention : Constraint → Option Nat} {cs : List Constraint} {n : Nat} :
    unanimous? (cs.filterMap mention) = some n ↔
      (∃ k ∈ cs, mention k = some n) ∧ ∀ k ∈ cs, ∀ x ∈ mention k, x = n := by
  simp only [unanimous?_eq_some_iff, List.mem_filterMap, Option.mem_def]
  refine and_congr_right fun _ => ⟨fun h k hk x hx => h x ⟨k, hk, hx⟩, ?_⟩
  rintro h x ⟨k, hk, hx⟩
  exact h k hk x hx

/-- Some constraints tell a placement: they are constraints of it, and they mention its row, its
column and its digit. Its cell is on the board, but its digit may be any number. -/
structure Told (p : Placement) (cs : List Constraint) : Prop where
  position_lt : p.position < p.size.cells
  mem : ∀ k ∈ cs, k ∈ p.constraints
  row : ∃ k ∈ cs, k.row? = some (p.row + 1)
  column : ∃ k ∈ cs, k.column? = some (p.column + 1)
  digit : ∃ k ∈ cs, k.digit? = some p.value

/-- A constraint is one of a placement exactly if all that it mentions is right. -/
theorem mem_constraints_iff {k : Constraint} : k ∈ p.constraints ↔
    (∀ row ∈ k.row?, row = p.row + 1) ∧ (∀ column ∈ k.column?, column = p.column + 1) ∧
      (∀ digit ∈ k.digit?, digit = p.value) ∧ ∀ box ∈ k.box?, box = p.box + 1 := by
  cases k <;> simp [constraints, Constraint.row?, Constraint.column?, Constraint.digit?,
    Constraint.box?, and_comm]

/-- The placement in a row and a column of the board is on it, and has that row and that column. -/
theorem row_column_ofCell {size : Size} {row column : Nat} (hrow : row < size.side)
    (hcolumn : column < size.side) (value : Nat) :
    (ofCell size row column value).position < size.cells ∧
      (ofCell size row column value).row = row ∧ (ofCell size row column value).column = column :=
  Size.div_mod_position hrow hcolumn

/-- The same where the row and the column are counted from one, as keys write them. -/
theorem ofCell_pred {size : Size} {row column : Nat} (hrow : 1 ≤ row ∧ row ≤ size.side)
    (hcolumn : 1 ≤ column ∧ column ≤ size.side) (value : Nat) :
    ∃ p, ofCell size (row - 1) (column - 1) value = p ∧ p.size = size ∧ p.value = value ∧
      p.position < size.cells ∧ p.row + 1 = row ∧ p.column + 1 = column ∧
      p.box = size.boxOf (row - 1) (column - 1) := by
  obtain ⟨hposition, hr, hc⟩ := row_column_ofCell (show row - 1 < size.side by omega)
    (show column - 1 < size.side by omega) value
  refine ⟨_, rfl, rfl, rfl, hposition, by omega, by omega, ?_⟩
  rw [Placement.box, hr, hc]
  rfl

/-- **What is read from constraints is the placement that they tell.** -/
theorem ofConstraints?_eq_some_iff {size : Size} {cs : List Constraint} :
    ofConstraints? size cs = some p ↔ p.size = size ∧ p.Told cs := by
  simp only [ofConstraints?, Option.bind_eq_bind, Option.bind_eq_some_iff, unanimous?_filterMap,
    Option.ite_none_right_eq_some, Option.some.injEq, List.mem_filterMap]
  constructor
  · rintro ⟨row, ⟨hrow, hrows⟩, column, ⟨hcolumn, hcolumns⟩, value, ⟨hvalue, hvalues⟩,
      ⟨hpos, hle, hpos', hle', hboxes⟩, heq⟩
    obtain ⟨p', hp', hsize, hvalue', hposition, hr, hc, hbox⟩ :=
      ofCell_pred ⟨hpos, hle⟩ ⟨hpos', hle'⟩ value
    obtain rfl := hp'.symm.trans heq
    refine ⟨hsize, hsize.symm ▸ hposition, fun k hk => mem_constraints_iff.mpr ?_, hr.symm ▸ hrow,
      hc.symm ▸ hcolumn, hvalue'.symm ▸ hvalue⟩
    rw [hr, hc, hbox, hvalue']
    exact ⟨hrows k hk, hcolumns k hk, hvalues k hk, fun box hmem => hboxes box ⟨k, hk, hmem⟩⟩
  · rintro ⟨rfl, hposition, hmem, hrow, hcolumn, hdigit⟩
    have hmem' := fun k hk => mem_constraints_iff.mp (hmem k hk)
    have hlt : p.row < p.size.side := Nat.div_lt_of_lt_mul hposition
    refine ⟨p.row + 1, ⟨hrow, fun k hk => (hmem' k hk).1⟩, p.column + 1,
      ⟨hcolumn, fun k hk => (hmem' k hk).2.1⟩, p.value, ⟨hdigit, fun k hk => (hmem' k hk).2.2.1⟩,
      ⟨by omega, hlt, by omega, column_lt, ?_⟩, ofCell_row_column⟩
    rintro box ⟨k, hk, hbox⟩
    exact (hmem' k hk).2.2.2 box hbox

/-- Some keys tell a placement: each of them can be read, and what is read tells it. -/
def ToldBy (p : Placement) (keys : List String) : Prop :=
  ∃ cs, List.Forall₂ (fun key k => Constraint.ofKey? key = some k) keys cs ∧ p.Told cs

/-- **What is read from keys is the placement that they tell.** -/
theorem ofKeys?_eq_some_iff {size : Size} {keys : List String} :
    ofKeys? size keys = some p ↔ p.size = size ∧ p.ToldBy keys := by
  simp only [ofKeys?, Option.bind_eq_bind, Option.bind_eq_some_iff, mapM_eq_some_iff,
    ofConstraints?_eq_some_iff, ToldBy]
  exact ⟨fun ⟨cs, hcs, hsize, htold⟩ => ⟨hsize, cs, hcs, htold⟩,
    fun ⟨hsize, cs, hcs, htold⟩ => ⟨cs, hcs, hsize, htold⟩⟩

/-- The constraints of a placement tell it in whatever order. -/
theorem told_of_perm (h : p.isValid = true) {cs : List Constraint} (hperm : cs.Perm p.constraints) :
    p.Told cs where
  position_lt := (valid_iff.mp h).1
  mem _ hk := hperm.mem_iff.mp hk
  row := ⟨.cell (p.row + 1) (p.column + 1), hperm.mem_iff.mpr (by simp [constraints]), rfl⟩
  column := ⟨.cell (p.row + 1) (p.column + 1), hperm.mem_iff.mpr (by simp [constraints]), rfl⟩
  digit := ⟨.inRow (p.row + 1) p.value, hperm.mem_iff.mpr (by simp [constraints]), rfl⟩

/-- **A placement is read back from its keys in whatever order.** -/
theorem ofKeys?_perm (h : p.isValid = true) {keys : List String} (hperm : keys.Perm p.keys) :
    ofKeys? p.size keys = some p := by
  obtain ⟨cs, hread, hcs⟩ :=
    List.perm_comp_forall₂ hperm (Constraint.forall₂_ofKey? fun _ hk => fits_of_mem h hk)
  exact ofKeys?_eq_some_iff.mpr ⟨rfl, cs, hread, told_of_perm h hcs⟩

end Placement

end Sudoku

end ExactCover
