import ExactCover.Proofs.Family.Encoding
import ExactCover.Proofs.Sudoku.Encoding

/-!
# What can be read from keys

A search reads its rows back as moves, and a row has the keys of its columns. But any keys can be
read, and then it is not certain that what they say is a move that the puzzle has.

From keys of a board a placement is read exactly if they tell it. Its cell is on the board then, but
the digit is not held against the size. So it is one of the candidates exactly if the board has its
digit. Where all keys are those of columns, it does.

From keys of a family a choice is read exactly if all of them are items. It has these items in the
order of the whole, whether or not they are a declared subset, and even if there are none.

* **`Sudoku.valid_iff_of_ofKeys?`**, **`Sudoku.valid_of_columns`**: boards.
* **`Family.valid_iff_of_ofKeys?`**, **`Family.Declared.exists_choice_iff`**: families.
* **`decodes_iff`**: both together.
-/

namespace ExactCover

/-! ## Boards -/

namespace Sudoku

variable {s : Sudoku} {keys : List String} {p : Placement}

theorem ofKeys?_iff : Puzzle.ofKeys? s keys = some p ↔ p.size = s.size ∧ p.ToldBy keys :=
  Placement.ofKeys?_eq_some_iff

theorem mem_candidates_of_ofKeys? (h : Puzzle.ofKeys? s keys = some p) :
    p ∈ candidates s.size ↔ p.isValid = true := by
  rw [mem_candidates, and_iff_right (ofKeys?_iff.mp h).1]

/-- The cell of what is read is on the board, so only the digit can be wrong. -/
theorem valid_iff_of_ofKeys? (h : Puzzle.ofKeys? s keys = some p) :
    p.isValid = true ↔ 1 ≤ p.value ∧ p.value ≤ s.size.side := by
  obtain ⟨hsize, cs, -, htold⟩ := ofKeys?_iff.mp h
  rw [Placement.valid_iff, and_iff_right htold.position_lt, hsize]

/-- A constraint that is read from the key of a column is on the board. -/
theorem isOn_of_ofKey? {key : String} {k : Constraint} (hkey : key ∈ Puzzle.constraints s)
    (h : Constraint.ofKey? key = some k) : k.IsOn s.size := by
  obtain ⟨k', hk', rfl⟩ := List.mem_map.mp hkey
  rw [mem_constraints] at hk'
  rw [Constraint.ofKey?_key (fits_of_isOn hk'), Option.some.injEq] at h
  rwa [← h]

/-- **From keys of columns only candidates are read.** -/
theorem valid_of_columns (h : Puzzle.ofKeys? s keys = some p)
    (hkeys : ∀ key ∈ keys, key ∈ Puzzle.constraints s) : p.isValid = true := by
  obtain ⟨-, cs, hread, htold⟩ := ofKeys?_iff.mp h
  -- some key mentions the digit, and the constraint that it is read as is on the board
  obtain ⟨k, hk, hdigit⟩ := htold.digit
  obtain ⟨key, hkey, hofKey⟩ := exists_of_forall₂ hread hk
  have hon := isOn_of_ofKey? (hkeys key hkey) hofKey
  rw [valid_iff_of_ofKeys? h]
  cases k with
  | cell row column => cases hdigit
  | inRow i digit | inColumn i digit | inBox i digit =>
    cases hdigit
    exact (mem_pairs.mp hon).2

end Sudoku

/-! ## Families -/

namespace Family

variable {f : Family} {keys : List String} {c : Choice}

theorem ofKeys?_iff : Puzzle.ofKeys? f keys = some c ↔
    (∀ key ∈ keys, key ∈ f.items) ∧ c.keys = f.items.filter (· ∈ keys) := by
  have hselect : Puzzle.ofKeys? f keys = some c ↔ f.select? keys = some c.keys := by
    show (f.select? keys).map Choice.mk = some c ↔ _
    rw [Option.map_eq_some_iff]
    exact ⟨fun ⟨items, hitems, heq⟩ => heq ▸ hitems, fun h => ⟨c.keys, h, rfl⟩⟩
  rw [hselect, select?_eq_some_iff, @eq_comm _ c.keys]

/-- What is read has the items that the keys are. -/
theorem mem_keys_of_ofKeys? (h : Puzzle.ofKeys? f keys = some c) {item : String} :
    item ∈ c.keys ↔ item ∈ keys := by
  obtain ⟨hkeys, hitems⟩ := ofKeys?_iff.mp h
  exact mem_of_select? (select?_eq_some_iff.mpr ⟨hkeys, hitems.symm⟩)

/-- What is read from no keys at all is a choice too, of no items. -/
theorem valid_iff_of_ofKeys? (h : Puzzle.ofKeys? f keys = some c) :
    Move.isValid c = true ↔ keys ≠ [] := by
  have hkeys : c.keys = [] ↔ keys = [] := by
    simp only [List.eq_nil_iff_forall_not_mem, mem_keys_of_ofKeys? h]
  show (!c.keys.isEmpty) = true ↔ _
  rw [Bool.not_eq_true', List.isEmpty_eq_false_iff, not_iff_not, hkeys]

/-- **What is read is the choice of a declared subset exactly if some declared subset has the items
that the keys are.** -/
theorem Declared.exists_choice_iff (hdeclared : f.Declared)
    (h : Puzzle.ofKeys? f keys = some c) :
    (∃ S ∈ f.subsets, S.choice = c) ↔ ∃ S ∈ f.subsets, ∀ item, item ∈ S.items ↔ item ∈ keys := by
  constructor
  · rintro ⟨S, hS, rfl⟩
    exact ⟨S, hS, fun _ => mem_keys_of_ofKeys? h⟩
  · rintro ⟨S, hS, hitems⟩
    -- both list their items in the order of the whole
    refine ⟨S, hS, congrArg Choice.mk ?_⟩
    rw [(ofKeys?_iff.mp h).2, ← hdeclared.ordered S hS]
    simp only [hitems]

end Family

/-! ## Both -/

/-- **Which moves are read from keys, and which of these the puzzle has.** A placement is read from
the keys that tell it, whatever its digit. It is valid, and then a candidate, exactly if its digit
is on the board; keys of columns tell no other. A choice is read from any items. It is valid if
there are any, and it is that of a declared subset exactly if one has just these items. -/
theorem decodes_iff {d : Declaration} {f : Family} (hf : Family.ofDeclaration d = .ok f)
    (s : Sudoku) (keys : List String) :
    (∀ p, (Puzzle.ofKeys? s keys = some p ↔ p.size = s.size ∧ p.ToldBy keys) ∧
      (Puzzle.ofKeys? s keys = some p →
        (p ∈ Sudoku.candidates s.size ↔ p.isValid = true) ∧
        (p.isValid = true ↔ 1 ≤ p.value ∧ p.value ≤ s.size.side) ∧
        ((∀ key ∈ keys, key ∈ Puzzle.constraints s) → p.isValid = true))) ∧
    ∀ c, (Puzzle.ofKeys? f keys = some c ↔
        (∀ key ∈ keys, key ∈ f.items) ∧ c.keys = f.items.filter (· ∈ keys)) ∧
      (Puzzle.ofKeys? f keys = some c →
        (Move.isValid c = true ↔ keys ≠ []) ∧
        ((∃ S ∈ f.subsets, S.choice = c) ↔
          ∃ S ∈ f.subsets, ∀ item, item ∈ S.items ↔ item ∈ keys)) := by
  obtain ⟨hdeclared, -, -⟩ := Family.declared_of_ofDeclaration hf
  constructor
  · intro p
    exact ⟨Sudoku.ofKeys?_iff, fun h => ⟨Sudoku.mem_candidates_of_ofKeys? h,
      Sudoku.valid_iff_of_ofKeys? h, Sudoku.valid_of_columns h⟩⟩
  · intro c
    exact ⟨Family.ofKeys?_iff, fun h =>
      ⟨Family.valid_iff_of_ofKeys? h, hdeclared.exists_choice_iff h⟩⟩

/-- From two keys of an empty board a candidate is read, and from both items of a family the choice
of no declared subset. -/
theorem decodes_iff_both :
    ∃ s f, Sudoku.ofGrid ⟨List.replicate 4 (List.replicate 4 0)⟩ = .ok s ∧
      Family.ofDeclaration ⟨["A", "B"], [("a", ["A"])], []⟩ = .ok f ∧
      (Puzzle.ofKeys? s ["R1C2", "B1#3"] = some ⟨1, 3, .four⟩ ∧
        ⟨1, 3, .four⟩ ∈ Sudoku.candidates s.size) ∧
      Puzzle.ofKeys? f ["B", "A"] = some (⟨["A", "B"]⟩ : Family.Choice) ∧
        Move.isValid (⟨["A", "B"]⟩ : Family.Choice) = true ∧
        ¬ ∃ S ∈ f.subsets, S.choice = ⟨["A", "B"]⟩ := by
  obtain ⟨s, hs, hp, hsize⟩ : ∃ s,
      Sudoku.ofGrid ⟨List.replicate 4 (List.replicate 4 0)⟩ = .ok s ∧
        Puzzle.ofKeys? s ["R1C2", "B1#3"] = some ⟨1, 3, .four⟩ ∧ s.size = .four :=
    ⟨_, rfl, rfl, rfl⟩
  obtain ⟨f, hf, hc, hsubsets⟩ : ∃ f,
      Family.ofDeclaration ⟨["A", "B"], [("a", ["A"])], []⟩ = .ok f ∧
        Puzzle.ofKeys? f ["B", "A"] = some (⟨["A", "B"]⟩ : Family.Choice) ∧
        f.subsets = [⟨"a", ["A"]⟩] := ⟨_, rfl, rfl, rfl⟩
  obtain ⟨hmem, hvalid, -⟩ := ((decodes_iff hf s _).1 _).2 hp
  obtain ⟨hsome, hdeclared⟩ := ((decodes_iff hf s _).2 _).2 hc
  refine ⟨s, f, hs, hf, ⟨hp, hmem.mpr (hvalid.mpr (by rw [hsize]; decide))⟩, hc,
    hsome.mpr (by simp), fun hchoice => ?_⟩
  -- the only subset has one of the two items
  obtain ⟨S, hS, hitems⟩ := hdeclared.mp hchoice
  rw [hsubsets, List.mem_singleton] at hS
  subst hS
  simpa using hitems "B"

/-- Keys can be read that are no move of the puzzle: a digit that the board does not have, two items
that are not a declared subset, and no items at all. -/
theorem exists_decoded_outside :
    (∃ s p, Sudoku.ofGrid ⟨List.replicate 4 (List.replicate 4 0)⟩ = .ok s ∧
      Puzzle.ofKeys? s ["R1C1", "R1#7"] = some p ∧ p.isValid = false ∧
      p ∉ Sudoku.candidates s.size) ∧
    ∃ f c c', Family.ofDeclaration ⟨["A", "B"], [("a", ["A"])], []⟩ = .ok f ∧
      Puzzle.ofKeys? f ["A", "B"] = some c ∧ (∀ S ∈ f.subsets, S.choice ≠ c) ∧
      Puzzle.ofKeys? f [] = some c' ∧ Move.isValid c' = false :=
  ⟨⟨_, _, rfl, rfl, by decide, by decide⟩, _, _, _, rfl, rfl, by decide, rfl, rfl⟩

end ExactCover
