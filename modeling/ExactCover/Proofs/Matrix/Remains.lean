import ExactCover.Proofs.Matrix.Build
import ExactCover.Proofs.Matrix.Covering

/-!
# What covering leaves

After some columns were covered, the others and the rows that meet none of the covered ones are
still there, in their old order and with the right sizes, and every row is still whole. What the
matrix shows depends on which columns were covered and not on their order, although the links of
the nodes that are out of their lists do depend on it.

* **`Matrix.Coverable`**: each column is live when its turn comes.
* **`Matrix.Remains`**: what a covered matrix shows, in terms of what it showed before.
* **`Represents.coverAll`**: covering several columns never fails.
* **`remains_coverAll`**: the result for every matrix that can be built.
-/

namespace ExactCover

open Mesh

/-! ## What is left -/

namespace Matrix

/-- Covers several columns, one after the other. -/
def coverAll (columns : List ColumnId) (m : Matrix) : Except Fault Matrix :=
  columns.foldlM (fun m c => return (← m.cover c).1) m

/-- Each of the columns is live when its turn to be covered comes. -/
def Coverable (m : Matrix) : List ColumnId → Prop
  | [] => True
  | c :: columns =>
    Lists m.live c ∧ ∀ m' touched, m.cover c = .ok (m', touched) → m'.Coverable columns

instance decidableCoverable : (m : Matrix) → (columns : List ColumnId) →
    Decidable (m.Coverable columns)
  | _, [] => isTrue trivial
  | m, c :: columns =>
    let rest : Decidable (∀ m' touched, m.cover c = .ok (m', touched) → m'.Coverable columns) :=
      match hcover : m.cover c with
      | .ok (m', touched) =>
        have := decidableCoverable m' columns
        decidable_of_iff (m'.Coverable columns) (by simp)
      | .error _ => isTrue (by simp)
    inferInstanceAs (Decidable (_ ∧ _))

/-- Whether the row through a node meets none of the columns. -/
def clearOf (m : Matrix) (columns : List ColumnId) (n : NodeId) : Bool :=
  match (do (← m.rowNodes n).mapM m.columnOf) with
  | .ok met => met.all (· ∉ columns)
  | .error _ => false

end Matrix

/-- The matrix `m'` is what `m` looks like without `columns` and the rows that meet them. -/
structure Matrix.Remains (m : Matrix) (columns : List ColumnId) (m' : Matrix) : Prop where
  live : ∃ live, m.live = .ok live ∧ m'.live = .ok (live.filter (· ∉ columns))
  /-- A column read downwards, its size, and the column read upwards. -/
  column : ∀ c, Lists m'.live c → ∃ nodes col, m.columnNodes c = .ok nodes ∧ m'.column c = .ok col ∧
    m'.columnNodes c = .ok (nodes.filter (m.clearOf columns)) ∧
    col.size = (nodes.filter (m.clearOf columns)).length ∧
    m'.mesh.ring (Node.prev .down) col.header = .ok (nodes.filter (m.clearOf columns)).reverse
  /-- Every row is whole, whether it was taken away or not. -/
  row : ∀ i n, m.mesh.node i = .ok n → n.isHeader = false →
    ∃ nodes, m.rowNodes i = .ok nodes ∧ m'.rowNodes i = .ok nodes
  heads : ∀ c col, Lists m'.live c → m'.column c = .ok col → ∀ a, m'.mesh.Mutual a col.header
  /-- The nodes that are below some head have neighbours that name them, and also below the head
  of a column that was covered. -/
  linked : ∀ c i, Lists m.live c → Lists (m'.columnNodes c) i → ∀ a, m'.mesh.Mutual a i

/-! ## Reading it off the layout -/

namespace Represents

variable {L : Layout} {covered columns : List ColumnId} {m m' : Matrix}

open Layout

theorem clearOf (h : Represents L covered m) {r : List Cell} {x : Cell} (hr : r ∈ L.rows)
    (hx : x ∈ r) : m.clearOf columns x.id ↔ ∀ d ∈ r.map Cell.column, d ∉ columns := by
  obtain ⟨u, v, rfl⟩ := List.append_of_mem hx
  have hcolumns : ((x :: (v ++ u)).map Cell.id).mapM m.columnOf =
      .ok ((x :: (v ++ u)).map Cell.column) := by
    rw [List.mapM_map]
    exact mapM_eq_ok fun y hy =>
      Shows.columnOf_cell h (List.mem_flatten_of_mem hr ((perm_round u v x).mem_iff.mp hy))
  simp only [Matrix.clearOf, Shows.rowNodes h hr, ok_bind, hcolumns, List.all_eq_true,
    decide_eq_true_eq]
  -- the row is read from `x` on, which changes the order of its columns only
  have hround := (perm_round u v x).map Cell.column
  exact forall_congr' fun d => imp_congr_left hround.mem_iff

/-- Of the nodes of a column that is left, those stay whose row meets no covered column. -/
theorem filter_clearOf (h : Represents L [] m) {c : ColumnId} (hc : c ∉ covered)
    (hcolumns : ∀ d, d ∈ columns ↔ d ∈ covered) :
    (L.nodes c).filter (m.clearOf columns) = (L.nodes c).filter (· ∉ L.hidden covered) := by
  refine List.filter_congr fun i hi => ?_
  obtain ⟨x, hx, rfl, rfl⟩ := mem_nodes.mp hi
  obtain ⟨r, hr, hxr⟩ := List.mem_flatten.mp hx
  rw [Bool.eq_iff_iff, h.clearOf hr hxr, decide_eq_true_iff, mem_hidden_iff hr hxr hc]
  simp [hcolumns]

/-- A node of a row and its neighbours in the row name each other, whatever was covered. -/
theorem mutual_across (h : Represents L covered m) {x : Cell} (hx : x ∈ L.rows.flatten) :
    m.mesh.Mutual .across x.id := by
  obtain ⟨r, hr, hxr⟩ := List.mem_flatten.mp hx
  obtain ⟨u, v, rfl⟩ := List.append_of_mem hxr
  exact (Shows.row_split h hr).mutual List.mem_cons_self

theorem remains (h : Represents L [] m) (h' : Represents L covered m')
    (hcolumns : ∀ c, c ∈ columns ↔ c ∈ covered) : m.Remains columns m' where
  live := by
    refine ⟨_, Shows.live h, ?_⟩
    rw [Shows.live h']
    simp [Table.live, hcolumns]
  column c hc := by
    obtain ⟨hcolumn, hfree⟩ := Table.mem_live.mp ((Shows.lists_live h').mp hc)
    refine ⟨L.nodes c, _, h.columnNodes_nil hcolumn, Shows.column_ok h' hcolumn, ?_, ?_, ?_⟩
    · rw [h.filter_clearOf hfree hcolumns]
      exact Shows.columnNodes h' hcolumn
    · rw [h.filter_clearOf hfree hcolumns]
    · rw [h.filter_clearOf hfree hcolumns]
      exact (h'.down c hcolumn).ring_prev
  row i n hn hheader := by
    obtain ⟨r, hr, x, hx, rfl⟩ := Shows.cell_of_node h hn hheader
    obtain ⟨u, v, rfl⟩ := List.append_of_mem hx
    exact ⟨_, Shows.rowNodes h hr, Shows.rowNodes h' hr⟩
  heads c col hc hcol a := by
    have hlive := (Shows.lists_live h').mp hc
    have hcolumn := (Table.mem_live.mp hlive).1
    rw [Shows.column_ok h' hcolumn] at hcol
    cases hcol
    cases a with
    | across => exact h'.heads.mutual (List.mem_cons_of_mem _ (List.mem_map_of_mem hlive))
    | down => exact (h'.down c hcolumn).mutual (by simp)
  linked c i hc hi a := by
    have hcolumn := (Table.mem_live.mp ((Shows.lists_live h).mp hc)).1
    rw [Shows.lists_columnNodes h' hcolumn] at hi
    cases a with
    | across =>
      obtain ⟨x, hx, -, rfl⟩ := mem_nodes.mp (List.mem_filter.mp hi).1
      exact h'.mutual_across hx
    | down => exact (h'.down c hcolumn).mutual (List.mem_cons_of_mem _ hi)

/-- **Columns that are live when their turn comes can be covered.** -/
theorem coverAll (h : Represents L covered m) (hcolumns : m.Coverable columns) :
    ∃ m', m.coverAll columns = .ok m' ∧ Represents L (columns.reverse ++ covered) m' := by
  induction columns generalizing covered m with
  | nil => exact ⟨m, rfl, h⟩
  | cons c columns ih =>
    obtain ⟨hc, hrest⟩ := hcolumns
    obtain ⟨m₁, hcover, h₁, -⟩ := h.cover ((Shows.lists_live h).mp hc)
    obtain ⟨m', hall, h'⟩ := ih h₁ (hrest m₁ _ hcover)
    refine ⟨m', ?_, by simpa using h'⟩
    simp only [Matrix.coverAll, List.foldlM_cons, hcover, ok_bind, pure_eq_ok]
    exact hall

end Represents

/-! ## Every matrix -/

/-- **What is left does not depend on the order of the covers.** Of any matrix that can be built,
the columns that are not covered are left, each with its rows that meet no covered column.
Covering the same columns in another order leaves the same. -/
theorem remains_coverAll (additions : List Addition) :
    ∃ m, Matrix.build additions = .ok m ∧ ∀ columns, m.Coverable columns →
      ∃ m', m.coverAll columns = .ok m' ∧ m.Remains columns m' ∧
        ∀ columns', m.Coverable columns' → (∀ c, c ∈ columns' ↔ c ∈ columns) →
          ∃ m'', m.coverAll columns' = .ok m'' ∧ m''.live = m'.live ∧
            ∀ c, Lists m'.live c → m''.columnNodes c = m'.columnNodes c ∧
              m''.column c = m'.column c := by
  obtain ⟨L, m, hbuild, hm, -⟩ := Represents.build additions
  refine ⟨m, hbuild, fun columns hcolumns => ?_⟩
  obtain ⟨m', hcover, hm'⟩ := hm.coverAll hcolumns
  rw [List.append_nil] at hm'
  refine ⟨m', hcover, hm.remains hm' (by simp), fun columns' hcolumns' hsame => ?_⟩
  obtain ⟨m'', hcover', hm''⟩ := hm.coverAll hcolumns'
  rw [List.append_nil] at hm''
  -- both matrices represent the layout, and live columns and rows depend on the set only
  have hlive : L.table.live columns'.reverse = L.table.live columns.reverse := by
    simp [Table.live, hsame]
  refine ⟨m'', hcover', ?_, fun c hc => ?_⟩
  · rw [Layout.Shows.live hm'', Layout.Shows.live hm', hlive]
  · rw [Layout.Shows.lists_live hm'] at hc
    have hthrough : L.through columns'.reverse c = L.through columns.reverse c := by
      simp [Layout.through, hsame]
    rw [hm'.columnNodes hc, hm'.column_ok hc, hm''.columnNodes (hlive ▸ hc),
      hm''.column_ok (hlive ▸ hc), Layout.table_through, Layout.table_through, hthrough]
    exact ⟨rfl, rfl⟩

/-- Two columns covered in either order: the links differ, but not what is left. -/
theorem remains_coverAll_swap :
    ∃ m m' m'', Matrix.build [.column "a", .column "b", .column "c", .row ["a", "b", "c"],
        .row ["c"]] = .ok m ∧
      m.coverAll [1, 2] = .ok m' ∧ m.coverAll [2, 1] = .ok m'' ∧ m' ≠ m'' ∧
        m.Remains [1, 2] m' ∧ m''.live = m'.live := by
  obtain ⟨m, hbuild, hall⟩ := remains_coverAll [.column "a", .column "b", .column "c",
    .row ["a", "b", "c"], .row ["c"]]
  have hcoverable : m.Coverable [1, 2] ∧ m.Coverable [2, 1] := by
    cases hbuild
    decide +kernel
  obtain ⟨m', hm', hremains, horder⟩ := hall [1, 2] hcoverable.1
  obtain ⟨m'', hm'', hlive, -⟩ := horder [2, 1] hcoverable.2 (by simp [or_comm])
  have hne : m.coverAll [1, 2] ≠ m.coverAll [2, 1] := by
    cases hbuild
    decide +kernel
  refine ⟨m, m', m'', hbuild, hm', hm'', fun heq => hne ?_, hremains, hlive⟩
  rw [hm', hm'', heq]

end ExactCover
