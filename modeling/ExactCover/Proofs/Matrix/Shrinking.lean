import ExactCover.Proofs.Matrix.Remains
import Mathlib.Algebra.GroupWithZero.Nat

/-!
# What covering counts is what goes

Covering counts nodes on the way along rows: one for each row of the column, and one for each of its
nodes in other columns. The extent of a matrix is counted the other way, column by column below the
heads that are live. The two agree, since a row that is still below some live head has all its nodes
in live columns, so that it goes as a whole. So the count of a cover is the loss of the matrix, and
the sum of the counts is what is missing in the end.

* **`Table.extent_cons`**, **`Table.extent_costAll`**: what a table loses with one column, and with
  several ones.
* **`Represents.rows_below`**: the rows below a head that is left, each as a whole.
* **`cover_shrinks`**: the result for every matrix that can be built.
-/

namespace ExactCover

/-! ## On a table -/

namespace Table

variable {t : Table} {covered : List ColumnId} {c : ColumnId}

/-- A column takes along the rows through it, and leaves the others. -/
theorem left_cons :
    t.left (c :: covered) = (t.left covered).filter fun r => !decide (c ∈ r) := by
  simp only [left, List.filter_filter]
  refine List.filter_congr fun r _ => ?_
  rw [Bool.eq_iff_iff]
  simp only [List.mem_cons, not_or, Bool.and_eq_true, Bool.not_eq_true', decide_eq_true_eq,
    decide_eq_false_iff_not]
  constructor
  · intro h
    exact ⟨fun hc => (h c hc).1 rfl, fun d hd => (h d hd).2⟩
  · rintro ⟨hc, hfree⟩ d hd
    exact ⟨fun heq => hc (heq ▸ hd), hfree d hd⟩

/-- **Covering one column takes one column and its cost away.** -/
theorem extent_cons (hrows : ∀ r ∈ t.rows, r.Nodup ∧ ∀ c ∈ r, c ∈ t.columns)
    (hc : c ∈ t.live covered) :
    t.extent covered =
      ((t.extent (c :: covered)).1 + 1, (t.extent (c :: covered)).2 + t.cost covered c) := by
  have hcolumns : (t.live (c :: covered)).length + 1 = (t.live covered).length := by
    rw [live_cons]
    exact length_filter_ne (nodup_columns.filter _) hc
  -- the rows that are left meet the column or do not
  have hperm := List.filter_append_perm (fun r => decide (c ∈ r)) (t.left covered)
  have hones : t.cost covered c + (t.left (c :: covered)).flatten.length =
      (t.left covered).flatten.length := by
    rw [cost, through_eq_filter_left, left_cons, ← List.length_append, ← List.flatten_append]
    exact hperm.flatten.length_eq
  rw [extent_eq hrows, extent_eq hrows, ← hcolumns, ← hones, Nat.add_comm (t.cost covered c)]

/-- **Covering several columns takes as many columns and the sum of the costs away.** -/
theorem extent_costAll (hrows : ∀ r ∈ t.rows, r.Nodup ∧ ∀ c ∈ r, c ∈ t.columns)
    {cs : List ColumnId} (hnodup : cs.Nodup) (hlive : ∀ c ∈ cs, c ∈ t.live covered) :
    t.extent covered =
      ((t.extent (cs.reverse ++ covered)).1 + cs.length,
        (t.extent (cs.reverse ++ covered)).2 + t.costAll covered cs) := by
  induction cs generalizing covered with
  | nil => simp [costAll]
  | cons c cs ih =>
    obtain ⟨hc, hnodup⟩ := List.nodup_cons.mp hnodup
    obtain ⟨hclive, hlive⟩ := List.forall_mem_cons.mp hlive
    have hrest : ∀ d ∈ cs, d ∈ t.live (c :: covered) := fun d hd => by
      rw [live_cons, List.mem_filter]
      exact ⟨hlive d hd, by simpa using fun heq : d = c => hc (heq ▸ hd)⟩
    rw [extent_cons hrows hclive, ih hnodup hrest, costAll, List.length_cons, List.reverse_cons,
      List.append_assoc, List.singleton_append, Nat.add_assoc, Nat.add_assoc,
      Nat.add_comm (t.cost covered c)]

end Table

/-! ## On a matrix -/

namespace Layout

variable {L : Layout}

/-- The rows of a layout meet columns of it, each once. -/
theorem table_rows : ∀ r ∈ L.table.rows, r.Nodup ∧ ∀ c ∈ r, c ∈ L.table.columns := by
  intro r hr
  obtain ⟨row, hrow, rfl⟩ := List.mem_map.mp hr
  refine ⟨nodup_row_columns hrow, fun c hc => ?_⟩
  obtain ⟨x, hx, rfl⟩ := List.mem_map.mp hc
  exact column_mem hrow hx

end Layout

namespace Represents

variable {L : Layout} {covered : List ColumnId} {m : Matrix}

open Layout

/-- The rows below a head that is left are those that are left, each as a whole. -/
theorem rows_below (h : Represents L covered m) {c : ColumnId} (hc : c ∈ L.table.live covered) :
    ∃ nodes rows, m.columnNodes c = .ok nodes ∧ nodes.mapM m.rowNodes = .ok rows ∧
      (rows.map List.length).sum = L.table.cost covered c := by
  have hrow : ∀ r ∈ L.through covered c,
      ∃ row, m.rowNodes (nodeIn c r) = .ok row ∧ row.length = r.length := fun r hr => by
    obtain ⟨u, x, v, rfl, rfl⟩ := split_of_mem_through hr
    have hmem := (mem_through.mp hr).1
    rw [nodeIn_split hmem]
    refine ⟨_, Shows.rowNodes h hmem, ?_⟩
    rw [List.length_map]
    exact (perm_round u v x).length_eq
  obtain ⟨rows, hrows⟩ := exists_forall₂ hrow
  refine ⟨(L.through covered c).map (nodeIn c), rows, ?_, ?_, ?_⟩
  · rw [h.columnNodes hc, flatMap_nodesIn]
  · rw [mapM_eq_ok_iff, List.forall₂_map_left_iff]
    exact hrows.imp fun r row hrow => hrow.1
  · have hlengths : rows.map List.length = (L.through covered c).map List.length := by
      rw [← List.forall₂_eq_eq_eq, List.forall₂_map_left_iff, List.forall₂_map_right_iff]
      exact (hrows.imp fun r row hrow => hrow.2).flip
    rw [hlengths, cost_table, List.length_flatten]

/-- What is lost with a column that is left. What is below its own head stays there. -/
theorem extent_cover (h : Represents L covered m) {c : ColumnId} (hc : c ∈ L.table.live covered) :
    ∃ m' k n, m.cover c = .ok (m', L.table.cost covered c) ∧ Represents L (c :: covered) m' ∧
      m'.columnNodes c = m.columnNodes c ∧
      m'.extent = .ok (k, n) ∧ m.extent = .ok (k + 1, n + L.table.cost covered c) := by
  obtain ⟨m', hcover, hm', -⟩ := h.cover hc
  have hcolumn := (Table.mem_live.mp hc).1
  refine ⟨m', _, _, hcover, hm', ?_, hm'.extent, ?_⟩
  · rw [Shows.columnNodes hm' hcolumn, Shows.columnNodes h hcolumn, filter_hidden_cons]
  · rw [h.extent, Table.extent_cons table_rows hc]
    rfl

/-- What is lost with the rest of a row, once the column that it was found in is covered. -/
theorem extent_coverRow {c : ColumnId} (h : Represents L (c :: covered) m)
    (hc : c ∈ L.table.live covered) {r : NodeId} (hr : Lists (m.columnNodes c) r) :
    ∃ row m' touched k n, m.rowNodes r = .ok row ∧ m.coverRow r = .ok (m', touched) ∧
      m'.extent = .ok (k, n) ∧ m.extent = .ok (k + (row.length - 1), n + touched) := by
  obtain ⟨hcolumn, hfree⟩ := Table.mem_live.mp hc
  rw [Shows.lists_columnNodes h hcolumn, filter_hidden_cons, filter_hidden hfree] at hr
  obtain ⟨u, x, v, hrow, rfl, rfl, hlive⟩ := exists_split hr
  have hlive' : ∀ z ∈ v ++ u, z.column ∉ x.column :: covered := fun z hz => by
    rw [List.mem_cons, not_or]
    exact ⟨column_ne_of_split hrow hz, hlive z hz⟩
  obtain ⟨m', hcover, hm', -⟩ := h.coverRow hrow hlive'
  refine ⟨_, m', _, _, _, Shows.rowNodes h hrow, hcover, hm'.extent, ?_⟩
  -- the other columns of the row are live, and each is one more column that goes
  have hnodup := (List.nodup_cons.mp (nodup_columns_from hrow)).2
  have hcolumns : ∀ d ∈ (v ++ u).map Cell.column, d ∈ L.table.live (x.column :: covered) := by
    intro d hd
    obtain ⟨z, hz, rfl⟩ := List.mem_map.mp hd
    exact Table.mem_live.mpr ⟨column_mem hrow (mem_of_rest hz), hlive' z hz⟩
  have hothers : ((x :: (v ++ u)).map Cell.id).length - 1 = ((v ++ u).map Cell.column).length := by
    rw [List.length_map, List.length_map, List.length_cons, Nat.add_sub_cancel]
  rw [h.extent, Table.extent_costAll table_rows hnodup hcolumns, hothers]
  rfl

end Represents

/-! ## Every matrix -/

/-- **A matrix loses what covering counts.** Of any matrix that can be built, let some columns be
covered, each of them live when its turn came. Covering one more live column then takes one column
away, and as many nodes as it answers; they are the nodes of all rows below the head of the column,
each row counted as a whole. From any of these rows, covering the columns of its other nodes takes
these columns away, and again as many nodes as it answers. -/
theorem cover_shrinks (additions : List Addition) :
    ∃ m₀, Matrix.build additions = .ok m₀ ∧ ∀ columns, m₀.Coverable columns →
      ∃ m, m₀.coverAll columns = .ok m ∧ ∀ c, Lists m.live c →
        ∃ m' touched k n nodes rows, m.cover c = .ok (m', touched) ∧
          m'.extent = .ok (k, n) ∧ m.extent = .ok (k + 1, n + touched) ∧
          m.columnNodes c = .ok nodes ∧ nodes.mapM m.rowNodes = .ok rows ∧
          touched = (rows.map List.length).sum ∧
          m'.columnNodes c = .ok nodes ∧
          ∀ r ∈ nodes, ∃ row m'' touched' k' n', m'.rowNodes r = .ok row ∧
            m'.coverRow r = .ok (m'', touched') ∧ m''.extent = .ok (k', n') ∧
            k = k' + (row.length - 1) ∧ n = n' + touched' := by
  obtain ⟨L, m₀, hbuild, hm₀, -⟩ := Represents.build additions
  refine ⟨m₀, hbuild, fun columns hcolumns => ?_⟩
  obtain ⟨m, hall, hm⟩ := hm₀.coverAll hcolumns
  refine ⟨m, hall, fun c hc => ?_⟩
  have hlive := (Layout.Shows.lists_live hm).mp hc
  obtain ⟨m', k, n, hcover, hm', hstay, hextent', hextent⟩ := hm.extent_cover hlive
  obtain ⟨nodes, rows, hnodes, hrows, hcost⟩ := hm.rows_below hlive
  rw [hnodes] at hstay
  refine ⟨m', _, k, n, nodes, rows, hcover, hextent', hextent, hnodes, hrows, hcost.symm, hstay,
    fun r hr => ?_⟩
  obtain ⟨row, m'', touched', k', n', hrow, hcoverRow, hextent'', hloss⟩ :=
    hm'.extent_coverRow hlive ⟨nodes, hstay, hr⟩
  obtain ⟨rfl, rfl⟩ := Prod.mk.inj (Except.ok.inj (hextent'.symm.trans hloss))
  exact ⟨row, m'', touched', k', n', hrow, hcoverRow, hextent'', rfl, rfl⟩

/-- Three rows that form a chain, and the last one gone. Covering the first column takes the first
row away, and covering the rest of that row the second one. -/
theorem cover_shrinks_chain :
    ∃ m₀ m m' m'' touched touched' k n, Matrix.build [.column "a", .column "b", .column "c",
        .column "d", .row ["a", "b"], .row ["b", "c"], .row ["c", "d"]] = .ok m₀ ∧
      m₀.coverAll [4] = .ok m ∧ m.extent = .ok (3, 4) ∧ m.cover 1 = .ok (m', touched) ∧
      m'.coverRow 5 = .ok (m'', touched') ∧ m''.extent = .ok (k, n) ∧
      k = 1 ∧ n + touched' + touched = 4 := by
  obtain ⟨m₀, hbuild, hcovered⟩ := cover_shrinks [.column "a", .column "b", .column "c",
    .column "d", .row ["a", "b"], .row ["b", "c"], .row ["c", "d"]]
  have hcoverable : m₀.Coverable [4] := by
    cases hbuild
    decide +kernel
  obtain ⟨m, hall, hshrinks⟩ := hcovered [4] hcoverable
  obtain ⟨hlive, hextent, hnode⟩ : Lists m.live 1 ∧ m.extent = .ok (3, 4) ∧
      Lists (m.columnNodes 1) 5 := by
    cases hbuild
    cases hall
    decide +kernel
  obtain ⟨m', touched, k, n, nodes, rows, hcover, hextent', hloss, hnodes, -, -, hstay, hrow⟩ :=
    hshrinks 1 hlive
  rw [hnodes, lists_ok] at hnode
  obtain ⟨row, m'', touched', k', n', hpair, hcoverRow, hextent'', hk, hn⟩ := hrow 5 hnode
  obtain rfl : row = [5, 6] := by
    cases hbuild
    cases hall
    cases hcover
    cases hpair
    rfl
  obtain ⟨hk', hn'⟩ := Prod.mk.inj (Except.ok.inj (hextent.symm.trans hloss))
  rw [List.length_cons, List.length_singleton] at hk
  exact ⟨m₀, m, m', m'', touched, touched', k', n', hbuild, hall, hextent, hcover, hcoverRow,
    hextent'', by omega, by omega⟩

end ExactCover
