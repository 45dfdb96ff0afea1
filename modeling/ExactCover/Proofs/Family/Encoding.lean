import ExactCover.Proofs.Family.Playing
import ExactCover.Proofs.Search.Exhaustive
import ExactCover.Proofs.Search.Refinement

/-!
# Families as exact covers

The table of a family has one column for each item and one row for each declared subset. The items
of the fixed subsets are covered before the search, also those of a fixed subset that was refused.
Some declared subsets are an exact cover of what is left if they hold every other item exactly once.

* **`Family.reserved`**: whether an item is one of a fixed subset.
* **`Family.Declared.mem_row`**: a subset meets the columns of its items.
* **`Family.Declared.exists_chosen`**: rows that read as moves are the rows of declared subsets, and
  the moves are their choices.
* **`Family.Declared.isExactCover_iff`**: exact covers, in terms of items and subsets.
-/

namespace ExactCover

namespace Family

open AlgorithmX (ReadsAs)

variable {f : Family} {s : Subset} {chosen : List Subset} {item : String} {c : ColumnId}

/-- One if the item is one of a fixed subset, whether that was chosen or refused, and else zero. -/
def reserved (f : Family) (item : String) : Nat := if ∃ s ∈ f.fixed, item ∈ s.items then 1 else 0

/-- The columns that a subset meets. -/
def row (f : Family) (s : Subset) : List ColumnId := (Puzzle.table f).meets s.items

/-! ## Columns -/

/-- The items are the columns, in their order. -/
theorem keys_table : (Puzzle.table f).keys = f.items := Table.keys_ofRows _ _

theorem exists_column (hitem : item ∈ f.items) :
    ∃ c ∈ (Puzzle.table f).columns, (Puzzle.table f).key c = item :=
  Table.exists_column (keys_table ▸ hitem)

theorem key_mem_items (hc : c ∈ (Puzzle.table f).columns) : (Puzzle.table f).key c ∈ f.items := by
  obtain ⟨hlt, hkey⟩ := Table.key_eq_getElem hc
  rw [hkey, ← keys_table]
  exact List.getElem_mem hlt

namespace Declared

theorem nodup_keys (h : f.Declared) : (Puzzle.table f).keys.Nodup := keys_table ▸ h.nodup_items

/-- **A subset meets the columns of its items.** -/
theorem mem_row (h : f.Declared) (hc : c ∈ (Puzzle.table f).columns) :
    c ∈ f.row s ↔ (Puzzle.table f).key c ∈ s.items := by
  rw [row, Table.mem_meets h.nodup_keys]
  exact and_iff_right hc

/-- The columns that are covered before the search are those of the items of the fixed subsets. -/
theorem mem_precovered (h : f.Declared) (hc : c ∈ (Puzzle.table f).columns) :
    c ∈ Puzzle.precovered f ↔ ∃ s ∈ f.fixed, (Puzzle.table f).key c ∈ s.items := by
  have hinitial : (Puzzle.initial f).flatMap Move.keys = f.fixed.flatMap Subset.items := by
    show (f.fixed.map Subset.choice).flatMap Choice.keys = _
    rw [List.flatMap_map]
    rfl
  rw [Puzzle.precovered, AlgorithmX.mem_precover h.nodup_keys hc, hinitial]
  simp

/-- After the fixed subsets were covered, the columns that are left are those of the items in none
of them. -/
theorem mem_live (h : f.Declared) (hc : c ∈ (Puzzle.table f).columns) :
    c ∈ (Puzzle.table f).live (Puzzle.precovered f) ↔
      f.reserved ((Puzzle.table f).key c) = 0 := by
  rw [Table.mem_live, and_iff_right hc, h.mem_precovered hc, reserved]
  split_ifs with hfixed <;> simp [hfixed]

/-! ## Rows -/

/-- The row of a subset meets the columns of its items, whatever order they are in. -/
theorem map_key_row (h : f.Declared) (hs : s ∈ f.subsets) :
    ((f.row s).map (Puzzle.table f).key).Perm s.items := by
  refine Table.map_key_meets h.nodup_keys ?_ fun key hkey => ?_
  · rw [← h.ordered s hs]
    exact h.nodup_items.filter _
  · exact keys_table ▸ h.mem_items hs hkey

theorem row_ne_nil (h : f.Declared) (hs : s ∈ f.subsets) : f.row s ≠ [] := fun hnil => by
  have hperm := h.map_key_row hs
  rw [hnil] at hperm
  exact h.ne_nil s hs hperm.nil_eq.symm

/-- The rows are those of the subsets. None is dropped, since a declared subset is not empty. -/
theorem mem_rows (h : f.Declared) {r : List ColumnId} :
    r ∈ (Puzzle.table f).rows ↔ ∃ s ∈ f.subsets, r = f.row s := by
  have hrows : (Puzzle.rows f : List (List String)) = f.subsets.map Subset.items := rfl
  rw [Puzzle.table, Table.mem_rows_ofRows, hrows]
  constructor
  · rintro ⟨-, keys, hkeys, rfl⟩
    obtain ⟨s, hs, rfl⟩ := List.mem_map.mp hkeys
    exact ⟨s, hs, rfl⟩
  · rintro ⟨s, hs, rfl⟩
    exact ⟨h.row_ne_nil hs, s.items, List.mem_map_of_mem hs, rfl⟩

/-- **A subset is read back from its items in whatever order.** -/
theorem ofKeys?_perm (h : f.Declared) (hs : s ∈ f.subsets) {keys : List String}
    (hperm : keys.Perm s.items) : Puzzle.ofKeys? f keys = some s.choice := by
  have hselect : f.select? keys = some s.items := by
    rw [select?_eq, if_pos fun key hkey => h.mem_items hs (hperm.mem_iff.mp hkey)]
    simp only [hperm.mem_iff, h.ordered s hs]
  show (f.select? keys).map Choice.mk = some s.choice
  rw [hselect]
  rfl

/-- A row is read back as the subset that it was made for, from whichever of its columns the reading
starts. -/
theorem ofKeys?_row (h : f.Declared) (hs : s ∈ f.subsets) (hc : c ∈ f.row s) :
    Puzzle.ofKeys? f ((c :: roundFrom (· == c) (f.row s)).map (Puzzle.table f).key) =
      some s.choice :=
  h.ofKeys?_perm hs (((perm_roundFrom hc).map _).trans (h.map_key_row hs))

/-- **Rows that read as moves are the rows of declared subsets,** and the moves choose these. -/
theorem exists_chosen (h : f.Declared) {rows : List (List ColumnId)} {moves : List Choice}
    (hreads : List.Forall₂ (ReadsAs (Puzzle.table f) f) rows moves)
    (hrows : ∀ r ∈ rows, r ∈ (Puzzle.table f).rows) :
    ∃ chosen : List Subset, (∀ s ∈ chosen, s ∈ f.subsets) ∧ rows = chosen.map f.row ∧
      moves = chosen.map Subset.choice := by
  induction hreads with
  | nil => exact ⟨[], by simp, rfl, rfl⟩
  | @cons r move rows moves hread _ ih =>
    obtain ⟨hr, hrest⟩ := List.forall_mem_cons.mp hrows
    obtain ⟨chosen, hmem, rfl, rfl⟩ := ih hrest
    obtain ⟨s, hs, rfl⟩ := h.mem_rows.mp hr
    obtain ⟨c, hc, hmove⟩ := hread
    rw [h.ofKeys?_row hs hc, Option.some.injEq] at hmove
    exact ⟨s :: chosen, List.forall_mem_cons.mpr ⟨hs, hmem⟩, rfl, by rw [List.map_cons, hmove]⟩

/-! ## Exact covers -/

/-- Rows meet a column as often as their subsets hold its item. -/
theorem countP_row (h : f.Declared) (hc : c ∈ (Puzzle.table f).columns) :
    (chosen.map f.row).countP (c ∈ ·) = holders chosen ((Puzzle.table f).key c) := by
  rw [List.countP_map, holders]
  exact List.countP_congr fun s _ => by simp [h.mem_row hc]

/-- **Declared subsets are an exact cover of what is left if every item is reserved or held by one
of them, and none is both or held twice.** -/
theorem isExactCover_iff (h : f.Declared) (hmem : ∀ s ∈ chosen, s ∈ f.subsets) :
    (Puzzle.table f).IsExactCover (Puzzle.precovered f) (chosen.map f.row) ↔
      ∀ item ∈ f.items, f.reserved item + holders chosen item = 1 := by
  constructor
  · intro hcover item hitem
    obtain ⟨c, hc, rfl⟩ := exists_column hitem
    by_cases hfixed : ∃ s ∈ f.fixed, (Puzzle.table f).key c ∈ s.items
    · -- a subset that held a reserved item would meet a covered column
      have hnone : holders chosen ((Puzzle.table f).key c) = 0 := by
        rw [← h.countP_row hc, List.countP_eq_zero]
        intro r hr hcr
        have hlive := (h.mem_live hc).mp (hcover.live r hr c (by simpa using hcr))
        rw [reserved, if_pos hfixed] at hlive
        cases hlive
      rw [reserved, if_pos hfixed, hnone]
    · have hzero : f.reserved ((Puzzle.table f).key c) = 0 := if_neg hfixed
      rw [hzero, Nat.zero_add, ← h.countP_row hc]
      exact hcover.once c ((h.mem_live hc).mpr hzero)
  · intro honce
    refine ⟨fun r hr => ?_, fun r hr => ?_, fun r hr c hcr => ?_, fun c hc => ?_⟩
    · obtain ⟨s, hs, rfl⟩ := List.mem_map.mp hr
      exact h.mem_rows.mpr ⟨s, hmem s hs, rfl⟩
    · obtain ⟨s, hs, rfl⟩ := List.mem_map.mp hr
      exact h.row_ne_nil (hmem s hs)
    · obtain ⟨s, hs, rfl⟩ := List.mem_map.mp hr
      have hc : c ∈ (Puzzle.table f).columns := Table.meets_sublist.subset hcr
      have hheld := holders_pos.mpr ⟨s, hs, (h.mem_row hc).mp hcr⟩
      have hone := honce _ (key_mem_items hc)
      exact (h.mem_live hc).mpr (by omega)
    · have hcolumn := (Table.mem_live.mp hc).1
      have hone := honce _ (key_mem_items hcolumn)
      rwa [(h.mem_live hcolumn).mp hc, Nat.zero_add, ← h.countP_row hcolumn] at hone

end Declared

end Family

end ExactCover
