import ExactCover.Proofs.Offering
import ExactCover.Proofs.Sudoku.Grammar
import ExactCover.Proofs.Sudoku.Solved

/-!
# Boards in play

Any placement may be offered to a board, also one for another size, outside the board or without a
digit. Whatever is offered, the board stays one that some grid shows. The rules look at the row, the
column and the box of one cell, while a board is consistent if no house of the whole board holds a
digit twice. On a consistent board the two come to the same: a number that is written into an empty
cell brings four more constraints, and a placement is legal if none of these is met already.

* **`Sudoku.grid_of_ofGrid`**: a board shows the grid that it was made from.
* **`Sudoku.Entered`**: a digit is entered into an empty cell, and nothing else changes.
* **`Sudoku.met_write`**: the constraints that are met after a number was written.
* **`Sudoku.isLegal_iff_isConsistent_write`**: legal placements keep a board consistent, and no
  others do.
* **`Sudoku.offer_sound`**: what is true of a board after any placements were offered.
-/

namespace ExactCover

namespace Sudoku

variable {s t : Sudoku} {g : Grid} {p : Placement} {q v : Nat}

/-! ## The grid of a board -/

/-- The shape of a grid that is read as a board, and the numbers on the board. -/
theorem shape_of_ofGrid (h : ofGrid g = .ok s) : g.rows.length = s.size.side ∧
    (∀ row ∈ g.rows, row.length = s.size.side) ∧
    ∀ q < s.size.cells, s.valueAt q = g.valueAt (q / s.size.side) (q % s.size.side) := by
  unfold ofGrid at h
  split at h
  · cases h
  case h_2 size hsize =>
    split at h
    · cases h
    case h_2 hragged =>
      split at h
      · cases h
      · cases h
        refine ⟨(Size.side_ofSide? hsize).symm, fun row hrow => ?_, fun q hq => ?_⟩
        · obtain ⟨r, hr, rfl⟩ := List.getElem_of_mem hrow
          have hmem : (g.rows[r], r) ∈ g.rows.zipIdx :=
            List.mem_zipIdx_iff_getElem?.mpr (List.getElem?_eq_getElem hr)
          simpa using List.find?_eq_none.mp hragged _ hmem
        · simp [valueAt, hq]

/-- **A board shows the grid that it was made from.** -/
theorem grid_of_ofGrid (h : ofGrid g = .ok s) : s.grid = g := by
  obtain ⟨hrows, hwidth, hvalue⟩ := shape_of_ofGrid h
  refine congrArg Grid.mk (List.ext_getElem ?_ fun r hr hr' =>
    List.ext_getElem ?_ fun c hc hc' => ?_)
  · rw [List.length_map, List.length_range, hrows]
  · rw [List.getElem_map, List.length_map, List.length_range, hwidth _ (List.getElem_mem hr')]
  · have hr : r < s.size.side := hrows ▸ hr'
    have hc : c < s.size.side := hwidth _ (List.getElem_mem hr') ▸ hc'
    obtain ⟨hlt, hdiv, hmod⟩ := Size.div_mod_position hr hc
    simp [hvalue _ hlt, hdiv, hmod, Grid.valueAt, hr', hc']

/-- A board and its grid have as many numbers. -/
theorem givens_grid (s : Sudoku) : s.grid.givens = s.givens := by
  have hvalues : s.values.countP (· ≠ 0) = s.givens := by
    rw [values, List.countP_map]
    rfl
  unfold Grid.givens
  rw [cells_grid, List.countP_map, ← hvalues]
  conv_rhs => rw [← List.zipIdx_map_fst 0 s.values, List.countP_map]
  rfl

/-! ## Entering a digit -/

/-- The board `t` is `s` with the digit of a placement in one cell, which was empty. -/
structure Entered (s : Sudoku) (p : Placement) (t : Sudoku) : Prop where
  size : t.size = s.size
  position_lt : p.position < s.size.cells
  empty : s.valueAt p.position = 0
  ne_zero : p.value ≠ 0
  valueAt : ∀ q, t.valueAt q = if q = p.position then p.value else s.valueAt q

theorem entered_of_play? (h : s.play? p = some t) : s.Entered p t := by
  obtain ⟨rfl, -, hposition, hempty, hne, -⟩ := play?_eq_some h
  exact ⟨rfl, hposition, hempty, hne, fun q => valueAt_write hposition⟩

theorem filled_write (hq : q < s.size.cells) (hempty : s.valueAt q = 0) (hv : v ≠ 0) :
    (s.write q v).filled.Perm (q :: s.filled) := by
  have hnodup : (q :: s.filled).Nodup :=
    List.nodup_cons.mpr ⟨fun hmem => mem_filled.mp hmem hempty, List.nodup_range.filter _⟩
  refine (List.perm_ext_iff_of_nodup (List.nodup_range.filter _) hnodup).mpr fun q' => ?_
  show q' ∈ (s.write q v).filled ↔ _
  rw [mem_filled, valueAt_write hq, List.mem_cons, mem_filled]
  by_cases heq : q' = q
  · simp [heq, hv]
  · simp [heq]

/-- **What a board meets after a number was written into an empty cell:** the constraints of that
placement, and those that were met before. -/
theorem met_write (hq : q < s.size.cells) (hempty : s.valueAt q = 0) (hv : v ≠ 0) :
    (s.write q v).met.Perm ((⟨q, v, s.size⟩ : Placement).constraints ++ s.met) := by
  have hother : s.filled.map (placement s.size (s.write q v)) =
      s.filled.map (placement s.size s) := by
    refine List.map_congr_left fun q' hq' => ?_
    have hne : q' ≠ q := fun heq => mem_filled.mp hq' (heq ▸ hempty)
    rw [placement, placement, valueAt_write hq, if_neg hne]
  have hthis : placement s.size (s.write q v) q = ⟨q, v, s.size⟩ := by
    rw [placement, valueAt_write hq, if_pos rfl]
  have hinitial := (filled_write hq hempty hv).map (placement s.size (s.write q v))
  rw [List.map_cons, hthis, hother] at hinitial
  exact hinitial.flatMap_right Placement.constraints

/-- **Writing into an empty cell** keeps a board consistent if no constraint of the placement was
met before. -/
theorem isConsistent_write_iff (hq : q < s.size.cells) (hempty : s.valueAt q = 0) (hv : v ≠ 0) :
    (s.write q v).isConsistent = true ↔ s.isConsistent = true ∧
      List.Disjoint (⟨q, v, s.size⟩ : Placement).constraints s.met := by
  have hself : (⟨q, v, s.size⟩ : Placement).constraints.Nodup := by simp [Placement.constraints]
  rw [← nodup_met_iff, ← nodup_met_iff, (met_write hq hempty hv).nodup_iff, List.nodup_append',
    and_iff_right hself]

/-- A placement is legal if none of its constraints is met. -/
theorem isLegal_iff_disjoint_met (hrange : ∀ q, s.valueAt q ≤ s.size.side)
    (hsize : p.size = s.size) (hvalid : p.isValid = true) :
    s.isLegal p = true ↔ List.Disjoint p.constraints s.met := by
  rw [isLegal_iff_disjoint hrange, disjoint_keys_iff hrange hvalid,
    and_iff_right (mem_candidates.mpr ⟨hsize, hvalid⟩)]
  constructor
  · intro happart k hk hmet
    obtain ⟨given, hgiven, hk'⟩ := List.mem_flatMap.mp hmet
    obtain ⟨q, hq, rfl⟩ := mem_initial.mp hgiven
    exact happart q hq ⟨k, hk, hk'⟩
  · rintro hdisjoint q hq ⟨k, hk, hk'⟩
    exact hdisjoint hk (List.mem_flatMap.mpr ⟨_, mem_initial.mpr ⟨q, hq, rfl⟩, hk'⟩)

/-- **On a consistent board the legal placements are those that keep it consistent.** -/
theorem isLegal_iff_isConsistent_write (hrange : ∀ q, s.valueAt q ≤ s.size.side)
    (hconsistent : s.isConsistent = true) (hsize : p.size = s.size) (hvalid : p.isValid = true)
    (hempty : s.valueAt p.position = 0) :
    s.isLegal p = true ↔ (s.write p.position p.value).isConsistent = true := by
  obtain ⟨hposition, hpos, -⟩ := Placement.valid_iff.mp hvalid
  rw [hsize] at hposition
  rw [isLegal_iff_disjoint_met hrange hsize hvalid,
    isConsistent_write_iff hposition hempty (Nat.ne_of_gt hpos), and_iff_right hconsistent, ← hsize]

/-! ## Any placements whatever -/

/-- Accepted or refused, placements lead only to boards that accepted ones alone lead to. -/
theorem played_offer (s : Sudoku) (moves : List Placement) :
    Played s (Puzzle.accepted s moves) (Puzzle.offer s moves) :=
  played_of_replay (Puzzle.replay?_accepted s moves)

theorem isSome_play? (s : Sudoku) (p : Placement) :
    (Puzzle.play? s p).isSome = s.isLegalByScan p := by
  show (s.play? p).isSome = _
  rw [← isLegal_eq_scan, play?]
  cases s.isLegal p <;> rfl

/-- **Playing keeps a board sound.** After any placements were offered to a board that a grid shows,
its own grid shows it, and no other grid does. The grid has as many numbers more as placements were
accepted. Of a placement that is offered next, a scan of the board says whether it is accepted. If
it is refused, nothing changes, and if it is accepted, one cell changes, which was empty. On a
consistent board, a placement in range on an empty cell is accepted exactly if the board is
consistent with that number written there, as a scan of the whole board finds out. -/
theorem offer_sound (h : ofGrid g = .ok s) (moves : List Placement) :
    ∃ t, Puzzle.offer s moves = t ∧
      (∀ g', ofGrid g' = .ok t ↔ g' = t.grid) ∧
      t.grid.givens = g.givens + (Puzzle.accepted s moves).length ∧
      ∀ p : Placement,
        (Puzzle.play? t p).isSome = t.isLegalByScan p ∧
        (Puzzle.play? t p = none → Puzzle.playOrSkip t p = t) ∧
        (∀ t', Puzzle.play? t p = some t' → Puzzle.playOrSkip t p = t' ∧ t.Entered p t') ∧
        (t.isConsistentByScan = true → p.size = t.size → p.isValid = true →
          t.valueAt p.position = 0 → ((Puzzle.play? t p).isSome = true ↔
            (t.write p.position p.value).isConsistentByScan = true)) := by
  have hplayed := played_offer s moves
  have hrange := hplayed.range (valueAt_le_of_ofGrid h)
  refine ⟨_, rfl, fun g' => ⟨fun hg' => (grid_of_ofGrid hg').symm, ?_⟩, ?_, fun p => ?_⟩
  · rintro rfl
    exact ofGrid_grid hrange
  · rw [givens_grid, hplayed.givens, ← givens_grid s, grid_of_ofGrid h]
  · refine ⟨isSome_play? _ p, Puzzle.playOrSkip_of_none, fun t' hplay => ?_, ?_⟩
    · exact ⟨Puzzle.playOrSkip_of_some hplay, entered_of_play? hplay⟩
    · intro hconsistent hsize hvalid hempty
      rw [← isConsistent_eq_scan] at hconsistent ⊢
      rw [isSome_play?, ← isLegal_eq_scan]
      exact isLegal_iff_isConsistent_write hrange hconsistent hsize hvalid hempty

/-- A taken cell, another size and no digit are refused, and one placement is accepted. After it a
three fits into the next cell, and a second two does not. -/
theorem offer_sound_refused :
    ∃ s t, ofGrid ⟨[[1, 0, 0, 0], [0, 4, 0, 2], [2, 0, 4, 0], [0, 0, 0, 1]]⟩ = .ok s ∧
      Puzzle.offer s [⟨0, 3, .four⟩, ⟨99, 7, .nine⟩, ⟨1, 2, .four⟩, ⟨2, 0, .four⟩] = t ∧
      ofGrid t.grid = .ok t ∧ t.grid.givens = 6 + 1 ∧
      (t.write 2 3).isConsistentByScan = true ∧ ¬ (t.write 2 2).isConsistentByScan = true := by
  obtain ⟨s, hs⟩ : ∃ s,
      ofGrid ⟨[[1, 0, 0, 0], [0, 4, 0, 2], [2, 0, 4, 0], [0, 0, 0, 1]]⟩ = .ok s := ⟨_, rfl⟩
  obtain ⟨t, ht, hshows, hgivens, hnext⟩ :=
    offer_sound hs [⟨0, 3, .four⟩, ⟨99, 7, .nine⟩, ⟨1, 2, .four⟩, ⟨2, 0, .four⟩]
  have haccepted : (Puzzle.accepted s
      [⟨0, 3, .four⟩, ⟨99, 7, .nine⟩, ⟨1, 2, .four⟩, ⟨2, 0, .four⟩]).length = 1 := by
    cases hs
    decide +kernel
  have hboard : t.size = .four ∧ t.valueAt 2 = 0 ∧ t.isConsistentByScan = true ∧
      (Puzzle.play? t ⟨2, 3, .four⟩).isSome = true ∧
      (Puzzle.play? t ⟨2, 2, .four⟩).isSome = false := by
    cases hs
    cases ht
    decide +kernel
  obtain ⟨hsize, hempty, hconsistent, hthree, htwo⟩ := hboard
  obtain ⟨-, -, -, hfits⟩ := hnext ⟨2, 3, .four⟩
  obtain ⟨-, -, -, hrepeats⟩ := hnext ⟨2, 2, .four⟩
  rw [haccepted] at hgivens
  refine ⟨s, t, hs, ht, (hshows t.grid).mpr rfl, hgivens, ?_, fun h => ?_⟩
  · exact (hfits hconsistent hsize.symm rfl hempty).mp hthree
  · have haccept := (hrepeats hconsistent hsize.symm rfl hempty).mpr h
    rw [htwo] at haccept
    cases haccept

end Sudoku

end ExactCover
