import ExactCover.Family.Basic
import ExactCover.Proofs.Matrix.Remains
import ExactCover.Proofs.Sudoku.Decides
import ExactCover.Proofs.Sudoku.Solved

/-!
# Keys that are passed over before a search

Before a search the columns of the initial moves are covered, key by key. A key finds its column by
going through those that are still live, so one that names no column and one whose column is covered
already look alike: neither finds anything, and both are counted. If no two columns have the same
key, the count does not depend on what became of the matrix on the way. It is the number of keys
that are unknown or came before.

* **`Search.conflicts`**: how many keys find no column.
* **`AlgorithmX.precover_eq_named`**: on a table, what is covered are the columns of the keys that
  find one, and the count is that of the others.
* **`Search.coverAll_of_precover`**: on a matrix, nothing is done but to cover these columns.
* **`precover_skips`**: the result for every puzzle. On a board nothing is skipped if and only if
  the givens are consistent.
-/

namespace ExactCover

/-! ## Keys that come first -/

namespace Search

/-- How many of the keys are unknown, or have come before. -/
def conflicts (known keys : List String) : Nat :=
  keys.zipIdx.countP fun (key, i) => key ∉ known ∨ key ∈ keys.take i

section

variable {known keys : List String} {key : String}

theorem conflicts_append :
    conflicts known (keys ++ [key]) =
      conflicts known keys + if key ∉ known ∨ key ∈ keys then 1 else 0 := by
  rw [conflicts, List.zipIdx_append, List.countP_append]
  refine congrArg₂ (· + ·) (List.countP_congr fun (k, i) hentry => ?_) ?_
  · -- a key that was there before has the same keys before it
    have hlt : i < keys.length + 0 := List.snd_lt_of_mem_zipIdx hentry
    have htake : (keys ++ [key]).take i = keys.take i :=
      List.take_append_of_le_length (Nat.le_of_lt hlt)
    simp only [htake]
  · simp [List.countP_cons]

/-- No key is passed over if all are known and none comes twice. -/
theorem conflicts_eq_zero : conflicts known keys = 0 ↔ (∀ key ∈ keys, key ∈ known) ∧ keys.Nodup := by
  induction keys using List.reverseRecOn with
  | nil => simp [conflicts]
  | append_singleton keys key ih =>
    rw [conflicts_append, Nat.add_eq_zero_iff, ih, ← List.concat_eq_append, List.nodup_concat]
    simp only [List.concat_eq_append, List.mem_append, List.mem_singleton, or_imp, forall_and,
      forall_eq]
    split_ifs with hmiss <;> tauto

end

end Search

/-! ## On a table -/

namespace Table

variable {t : Table} {covered : List ColumnId} {c : ColumnId} {key : String}

/-- A key that finds nothing is unknown, or its column was covered. -/
theorem find?_eq_none (h : t.find? covered key = none) :
    key ∉ t.keys ∨ ∃ c ∈ t.columns, t.key c = key ∧ c ∈ covered := by
  by_cases hkey : key ∈ t.keys
  · obtain ⟨c, hc, rfl⟩ := exists_column hkey
    refine Or.inr ⟨c, hc, rfl, ?_⟩
    by_contra hfree
    simpa using List.find?_eq_none.mp h c (mem_live.mpr ⟨hc, hfree⟩)
  · exact Or.inl hkey

theorem find?_eq_some (h : t.find? covered key = some c) :
    c ∈ t.columns ∧ c ∉ covered ∧ t.key c = key :=
  have hlive := mem_live.mp (List.mem_of_find?_eq_some h)
  ⟨hlive.1, hlive.2, by simpa using List.find?_some h⟩

end Table

namespace AlgorithmX

variable {t : Table}

theorem precover_append (covered : List ColumnId) (keys : List String) (key : String) :
    precover t covered (keys ++ [key]) = precoverKey t (precover t covered keys) key := by
  simp [precover, List.foldl_append]

/-- Columns are covered once, since a covered one is not found any more. -/
theorem precover_fresh (t : Table) (keys : List String) :
    (precover t [] keys).1.Nodup ∧ ∀ c ∈ (precover t [] keys).1, c ∈ t.columns := by
  induction keys using List.reverseRecOn with
  | nil => simp [precover]
  | append_singleton keys key ih =>
    rw [precover_append, precoverKey]
    cases hfind : t.find? (precover t [] keys).1 key with
    | none => exact ih
    | some c =>
      obtain ⟨hc, hfree, -⟩ := Table.find?_eq_some hfind
      exact ⟨List.nodup_cons.mpr ⟨hfree, ih.1⟩, List.forall_mem_cons.mpr ⟨hc, ih.2⟩⟩

/-- **The columns of the keys that are named are covered, in order, and the other keys are
counted.** Induction on the keys, from the last one: whether it finds its column depends on whether
it is one of those before it. -/
theorem precover_eq_named (hnodup : t.keys.Nodup) (keys : List String) :
    (precover t [] keys).1.reverse.map t.key = named t.keys keys ∧
      (precover t [] keys).2 = Search.conflicts t.keys keys := by
  induction keys using List.reverseRecOn with
  | nil => exact ⟨rfl, rfl⟩
  | append_singleton keys key ih =>
    obtain ⟨hcovered, hskipped⟩ := ih
    have hmem : ∀ c ∈ t.columns, c ∈ (precover t [] keys).1 ↔ t.key c ∈ keys := fun c hc => by
      simp [mem_precover hnodup hc]
    rw [precover_append, named_append, Search.conflicts_append, precoverKey]
    cases hfind : t.find? (precover t [] keys).1 key with
    | some c =>
      obtain ⟨hc, hfree, rfl⟩ := Table.find?_eq_some hfind
      have hknown := Table.key_mem_keys hc
      have hfirst : t.key c ∉ keys := fun hkey => hfree ((hmem c hc).mpr hkey)
      simp [hcovered, hskipped, hknown, hfirst]
    | none =>
      have hmiss : key ∉ t.keys ∨ key ∈ keys := by
        rcases Table.find?_eq_none hfind with hkey | ⟨c, hc, rfl, hgone⟩
        · exact Or.inl hkey
        · exact Or.inr ((hmem c hc).mp hgone)
      have hnot : ¬ (key ∈ t.keys ∧ key ∉ keys) := by tauto
      simp [hcovered, hskipped, if_pos hmiss, if_neg hnot]

end AlgorithmX

/-! ## On a matrix -/

namespace Search

/-- A key either finds a column, which is covered, or changes nothing but the count. -/
theorem precoverKey_cases {pre pre' : Precovered} {key : String}
    (h : CoverOps.listed.precoverKey pre key = .ok pre') :
    (∃ c touched, pre.matrix.cover c = .ok (pre'.matrix, touched) ∧
        pre'.covered = c :: pre.covered ∧ pre'.skipped = pre.skipped) ∨
      pre' = { pre with skipped := pre.skipped + 1 } := by
  obtain ⟨found, -, h⟩ := bind_eq_ok.mp h
  cases found with
  | none =>
    cases h
    exact Or.inr rfl
  | some c =>
    obtain ⟨⟨m', touched⟩, hcover, h⟩ := bind_eq_ok.mp h
    cases h
    exact Or.inl ⟨c, touched, hcover, rfl, rfl⟩

/-- **Before a search nothing is done to the matrix but to cover columns,** those that are kept a
list of, the latest of them first. -/
theorem coverAll_of_precover {keys : List String} {m : Matrix} {pre : Precovered}
    (h : precover keys m = .ok pre) : m.coverAll pre.covered.reverse = .ok pre.matrix := by
  -- the same holds from wherever the keys before have led
  have hfrom : ∀ start : Precovered, m.coverAll start.covered.reverse = .ok start.matrix →
      keys.foldlM CoverOps.listed.precoverKey start = .ok pre →
      m.coverAll pre.covered.reverse = .ok pre.matrix := by
    clear h
    induction keys with
    | nil =>
      intro start hstart hfold
      cases hfold
      exact hstart
    | cons key keys ih =>
      intro start hstart hfold
      rw [List.foldlM_cons] at hfold
      obtain ⟨next, hstep, hrest⟩ := bind_eq_ok.mp hfold
      refine ih next ?_ hrest
      rcases precoverKey_cases hstep with ⟨c, touched, hcover, hcovered, -⟩ | rfl
      · rw [hcovered, List.reverse_cons, Matrix.coverAll, List.foldlM_append,
          show start.covered.reverse.foldlM _ m = _ from hstart]
        simp [hcover]
      · exact hstart
  exact hfrom ⟨m, [], 0⟩ rfl h

end Search

/-! ## Every puzzle -/

section

variable {L : Layout} {m : Matrix}

/-- The keys of some columns of a layout, read off the matrix. -/
theorem Represents.mapM_key (h : Represents L [] m) {columns : List ColumnId}
    (hcolumns : ∀ c ∈ columns, c ∈ L.table.columns) :
    columns.mapM (fun c => return (← m.column c).key) = .ok (columns.map L.table.key) :=
  mapM_eq_ok fun c hc => by simp [Layout.Shows.column_ok h (hcolumns c hc)]

/-- What covering the columns of some keys does to a matrix in which no two columns have the same
key. -/
theorem Represents.precover_named (h : Represents L [] m) (hnodup : L.keys.Nodup)
    (keys : List String) :
    ∃ pre, Search.precover keys m = .ok pre ∧ m.coverAll pre.covered.reverse = .ok pre.matrix ∧
      pre.covered.Nodup ∧ (∀ c ∈ pre.covered, c ∈ L.table.columns) ∧
      pre.covered.reverse.map L.table.key = named L.keys keys ∧
      pre.skipped = Search.conflicts L.keys keys := by
  obtain ⟨m', new, skipped, hprecover, href, hm', -⟩ := precover_eq h keys
  rw [List.append_nil] at href
  obtain ⟨hnamed, hskipped⟩ := AlgorithmX.precover_eq_named (t := L.table) hnodup keys
  obtain ⟨hfresh, hcolumns⟩ := AlgorithmX.precover_fresh L.table keys
  rw [href] at hnamed hskipped hfresh hcolumns
  exact ⟨_, hprecover, Search.coverAll_of_precover hprecover, hfresh, hcolumns, hnamed, hskipped⟩

end

/-- The givens of a board name known columns, so what they skip are repeats. -/
theorem Sudoku.skipped_eq_zero_iff {s : Sudoku} (hrange : ∀ q, s.valueAt q ≤ s.size.side) :
    (AlgorithmX.precover (Puzzle.table s) [] ((Puzzle.initial s).flatMap Move.keys)).2 = 0 ↔
      s.isConsistent = true := by
  have hkeys : (Puzzle.initial s).flatMap Move.keys = s.initial.flatMap Placement.keys := rfl
  have hknown : ∀ key ∈ s.initial.flatMap Placement.keys, key ∈ (Puzzle.table s).keys := by
    rw [keys_initial, keys_table]
    intro key hkey
    obtain ⟨k, hk, rfl⟩ := List.mem_map.mp hkey
    exact List.mem_map_of_mem (mem_constraints.mpr (isOn_of_mem_met hrange hk))
  rw [hkeys, (AlgorithmX.precover_eq_named nodup_keys _).2, Search.conflicts_eq_zero,
    and_iff_right hknown, nodup_keys_initial_iff hrange]

/-- **The keys that are passed over are the conflicts.** Whatever puzzle is searched on whatever
matrix that was built, if no two columns have the same key, then each column that a key of an
initial move names is covered once, in the order in which the keys come first, and the search counts
the keys that name no column or have come before. On every board that a grid shows this count is
zero if and only if the board is consistent, which a scan of the board finds out too. -/
theorem precover_skips :
    (∀ {σ μ : Type} [Move μ] [Puzzle σ μ] (p : σ) (additions : List Addition),
      ∃ m live keys, Matrix.build additions = .ok m ∧ m.live = .ok live ∧
        live.length = m.columnCount ∧
        live.mapM (fun c => return (← m.column c).key) = .ok keys ∧
        (keys.Nodup → ∃ pre,
          Search.precover ((Puzzle.initial p).flatMap Move.keys) m = .ok pre ∧
          m.coverAll pre.covered.reverse = .ok pre.matrix ∧
          pre.covered.Nodup ∧ (∀ c ∈ pre.covered, c ∈ live) ∧
          pre.covered.reverse.mapM (fun c => return (← m.column c).key) =
            .ok (named keys ((Puzzle.initial p).flatMap Move.keys)) ∧
          pre.skipped = Search.conflicts keys ((Puzzle.initial p).flatMap Move.keys) ∧
          ∀ o, ∃ out, Search.solveWith p o m = .ok out ∧ out.tally.skipped = pre.skipped)) ∧
    ∀ {g : Sudoku.Grid} {s : Sudoku}, Sudoku.ofGrid g = .ok s → ∀ o,
      ∃ out, Search.solve s o = .ok out ∧
        (out.tally.skipped = 0 ↔ s.isConsistent = true) ∧
        s.isConsistent = s.isConsistentByScan := by
  refine ⟨fun p additions => ?_, fun {g s} h o => ?_⟩
  · obtain ⟨L, m, hbuild, hm, -⟩ := Represents.build additions
    refine ⟨m, L.table.columns, L.keys, hbuild, Table.live_nil ▸ Layout.Shows.live hm, ?_, ?_, ?_⟩
    · simp [Table.columns, Layout.table, Matrix.columnCount, hm.columnCount]
    · rw [hm.mapM_key fun _ hc => hc, Table.map_key_columns]
      rfl
    · intro hnodup
      obtain ⟨pre, hprecover, hall, hfresh, hcolumns, hnamed, hskipped⟩ :=
        hm.precover_named hnodup ((Puzzle.initial p).flatMap Move.keys)
      refine ⟨pre, hprecover, hall, hfresh, hcolumns, ?_, hskipped, fun o => ?_⟩
      · rw [hm.mapM_key (by simpa using hcolumns), hnamed]
      · refine ⟨_, solveWith_eq hm p o, ?_⟩
        rw [hskipped]
        exact (AlgorithmX.precover_eq_named hnodup _).2
  · obtain ⟨m, hsolve⟩ := solve_eq s o
    refine ⟨_, hsolve, ?_, Sudoku.isConsistent_eq_scan s⟩
    exact Sudoku.skipped_eq_zero_iff (Sudoku.valueAt_le_of_ofGrid h)

/-- Two fixed subsets that overlap have the keys `a`, `b` and `b`. In a matrix without a column `a`
two of them are passed over. A board with two ones in a row skips something too. -/
theorem precover_skips_overlap :
    (∃ f, Family.ofDeclaration ⟨["a", "b"], [("x", ["a", "b"]), ("y", ["b"])], ["x", "y"]⟩ = .ok f ∧
      ∃ m pre, Matrix.build [.column "b", .column "c", .row ["b", "c"]] = .ok m ∧
        Search.precover ((Puzzle.initial f).flatMap Move.keys) m = .ok pre ∧
        pre.covered.length = 1 ∧ pre.skipped = 2) ∧
    ∃ s, Sudoku.ofGrid ⟨[[1, 0, 0, 1], [0, 0, 0, 0], [0, 0, 0, 0], [0, 0, 0, 0]]⟩ = .ok s ∧
      ∃ out, Search.solve s {} = .ok out ∧ out.tally.skipped ≠ 0 := by
  obtain ⟨hpuzzle, hboard⟩ := precover_skips
  refine ⟨?_, ?_⟩
  · obtain ⟨f, hf⟩ : ∃ f, Family.ofDeclaration
        ⟨["a", "b"], [("x", ["a", "b"]), ("y", ["b"])], ["x", "y"]⟩ = .ok f := ⟨_, rfl⟩
    obtain ⟨m, live, keys, hbuild, hlive, -, hkeys, hall⟩ :=
      hpuzzle f [.column "b", .column "c", .row ["b", "c"]]
    obtain rfl : keys = ["b", "c"] := by
      cases hbuild
      cases hlive
      cases hkeys
      rfl
    obtain ⟨pre, hprecover, -, -, -, hnamed, hskipped, -⟩ := hall (by decide)
    refine ⟨f, hf, m, pre, hbuild, hprecover, ?_, ?_⟩
    · have hlength := (mapM_eq_ok_iff.mp hnamed).length_eq
      cases hf
      rw [List.length_reverse] at hlength
      exact hlength
    · cases hf
      exact hskipped
  · obtain ⟨s, hs⟩ : ∃ s, Sudoku.ofGrid
        ⟨[[1, 0, 0, 1], [0, 0, 0, 0], [0, 0, 0, 0], [0, 0, 0, 0]]⟩ = .ok s := ⟨_, rfl⟩
    obtain ⟨out, hsolve, hskipped, -⟩ := hboard hs {}
    have hclash : s.isConsistent = false := by
      cases hs
      decide +kernel
    refine ⟨s, hs, out, hsolve, fun hzero => ?_⟩
    rw [hskipped.mp hzero] at hclash
    cases hclash

end ExactCover
