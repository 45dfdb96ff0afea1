import ExactCover.Proofs.Matrix.Growth
import ExactCover.Proofs.Matrix.Inventory

/-!
# Rows, and whole matrices

Whatever columns and rows are added, in whatever order, every addition succeeds and the matrix
represents the table that the same additions lead to. Which node is in which place of the table is
what the inventory of the additions says.

* **`pick_eq`**: of the keys of a row, those are used that `Table.meets` names; the first column
  that carries a key uses it up.
* **`Represents.addPicked`**: the nodes of a row are added one after the other.
* **`Represents.addRow`**: a row comes after the last one, unless it meets no column.
* **`Represents.buildInventory`, `Represents.build`**: every matrix that can be built represents
  what its inventory says, and its table.
* **`Matrix.ofRows_eq_build`**: a matrix that is given by its columns and its rows is one of them.
-/

namespace ExactCover

open Mesh

/-! ## The columns of a row -/

namespace Matrix

theorem pick_nil (labels : List (NodeId × ColumnId × String)) : pick labels [] = [] := by
  cases labels <;> rfl

/-- Of the columns with a key the first one is picked, and the key is used up. -/
theorem pick_cons (header : NodeId) (c : ColumnId) (key : String)
    (rest : List (NodeId × ColumnId × String)) (keys : List String) :
    pick ((header, c, key) :: rest) keys =
      if keys.contains key then (header, c) :: pick rest (keys.filter (· ≠ key))
      else pick rest keys := by
  cases keys with
  | nil => simp [pick_nil]
  | cons k keys => rfl

end Matrix

namespace Table

variable {t : Table} {keys : List String}

/-- The columns after the first few pick from the keys that those have not used up. -/
theorem pick_range' (header : ColumnId → NodeId) (keys : List String) {pre suf : List String}
    (hkeys : t.keys = pre ++ suf) :
    Matrix.pick ((List.range' (pre.length + 1) suf.length).map fun c => (header c, c, t.key c))
        (keys.filter (· ∉ pre)) =
      ((List.range' (pre.length + 1) suf.length).filter (t.Meets keys ·)).map
        fun c => (header c, c) := by
  induction suf generalizing pre with
  | nil => rfl
  | cons k suf ih =>
    have hsplit : t.keys = (pre ++ [k]) ++ suf := by simp [hkeys]
    have hrest := ih hsplit
    rw [List.length_append, List.length_singleton] at hrest
    have hkey : t.key (pre.length + 1) = k := by simp [key, hkeys]
    -- no earlier column has the key if this one is the first that has it
    have hfirst : t.keys.idxOf k + 1 = pre.length + 1 ↔ k ∉ pre := by
      rw [hkeys, List.idxOf_append]
      split_ifs with hk
      · have hlt := List.idxOf_lt_length_of_mem hk
        exact ⟨fun heq => by omega, fun hnot => absurd hk hnot⟩
      · simp [hk]
    rw [List.length_cons, List.range'_succ, List.map_cons, Matrix.pick_cons, hkey]
    by_cases hk : k ∈ keys ∧ k ∉ pre
    · -- the key is used here, and is gone for the columns after this one
      have hcontains : (keys.filter (· ∉ pre)).contains k = true := by simp [hk.1, hk.2]
      have hmeets : t.Meets keys (pre.length + 1) := by
        rw [Meets, hkey]
        exact ⟨hk.1, hfirst.mpr hk.2⟩
      have hused : (keys.filter (· ∉ pre)).filter (· ≠ k) = keys.filter (· ∉ pre ++ [k]) := by
        rw [List.filter_filter]
        refine List.filter_congr fun k' _ => ?_
        simp [and_comm]
      rw [if_pos hcontains, hused, hrest, List.filter_cons_of_pos (by simpa using hmeets)]
      rfl
    · -- the key was used before, or is none of the row
      have hcontains : ¬ (keys.filter (· ∉ pre)).contains k = true := by simpa using hk
      have hmeets : ¬ t.Meets keys (pre.length + 1) := by
        rw [Meets, hkey, hfirst]
        exact hk
      have hunused : keys.filter (· ∉ pre) = keys.filter (· ∉ pre ++ [k]) := by
        refine List.filter_congr fun k' hk' => ?_
        have hne : k' ∉ pre → k' ≠ k := fun hpre heq => hk ⟨heq ▸ hk', heq ▸ hpre⟩
        simpa using hne
      rw [if_neg hcontains, hunused, hrest, List.filter_cons_of_neg (by simpa using hmeets)]

/-- **A row gets its nodes under the columns that it meets.** -/
theorem pick_eq (header : ColumnId → NodeId) :
    Matrix.pick (t.columns.map fun c => (header c, c, t.key c)) keys =
      (t.meets keys).map fun c => (header c, c) := by
  have hpick := pick_range' header keys (show t.keys = [] ++ t.keys by simp)
  simpa [meets_eq, columns] using hpick

end Table

/-! ## One row -/

/-- A node that goes on with a row is added as a row of its own and then joined to it. The two steps
are what is proved to work. -/
theorem Matrix.addNode_some (m : Matrix) (header : NodeId) (c : ColumnId) (first : NodeId) :
    m.addNode header c (some first) = do
      let (m', id) ← m.addNode header c none
      return (← m'.onMesh (Mesh.insertBefore .across id first), first) := by
  simp only [Matrix.addNode_eq, bind_assoc, pure_bind]

namespace Represents

variable {L : Layout} {m : Matrix}

open Layout

/-- The next node of a matrix has the number that its inventory says. -/
theorem size_eq (h : Represents L [] m) : m.mesh.size = L.inventory.size := by
  rw [Shows.size h, length_ids]

/-- The columns are gone through in order, each with its head and its key. -/
theorem labels (h : Represents L [] m) :
    m.labels = .ok (L.table.columns.map fun c => (L.header c, c, L.table.key c)) := by
  simp only [Matrix.labels, h.heads.ring_next, ok_bind, Table.live_nil, List.mapM_map]
  refine mapM_eq_ok fun c hc => ?_
  simp [Shows.columnOf_header h hc, Shows.column_ok h hc]

/-- One more node of the row that comes last. -/
theorem addNode (h : Represents L [] m) {rows : List (List Cell)} {row : List Cell} {c : ColumnId}
    (hrows : L.rows = rows ++ asRows row) (hc : c ∈ L.table.columns)
    (hasc : (row.map Cell.column ++ [c]).Pairwise (· < ·)) :
    ∃ L' m', m.addNode (L.header c) c (row.head?.map Cell.id) =
        .ok (m', (row.head?.map Cell.id).getD m.mesh.size) ∧
      Represents L' [] m' ∧ L'.headers = L.headers ∧ L'.keys = L.keys ∧
      L'.rows = rows ++ asRows (row ++ [⟨m.mesh.size, c⟩]) := by
  obtain ⟨m₁, hadd, hm₁⟩ := h.addCell hc
  cases row with
  | nil =>
    have hrows : L.rows = rows := by simpa [asRows] using hrows
    have hrows₁ : (L.addCell ⟨m.mesh.size, c⟩ h.size_notMem_ids hc).rows =
        rows ++ asRows [⟨m.mesh.size, c⟩] := by simp [Layout.addCell, asRows, hrows]
    exact ⟨_, m₁, hadd, hm₁, rfl, rfl, hrows₁⟩
  | cons y r =>
    let L₁ := L.addCell ⟨m.mesh.size, c⟩ h.size_notMem_ids hc
    have hrows₁ : L₁.rows = rows ++ [y :: r, [⟨m.mesh.size, c⟩]] := by
      simp [L₁, Layout.addCell, hrows, asRows]
    have hasc₁ : (((y :: r) ++ [(⟨m.mesh.size, c⟩ : Cell)]).map Cell.column).Pairwise (· < ·) := by
      simpa using hasc
    obtain ⟨m₂, hjoin, hm₂⟩ := hm₁.joinRow hrows₁ hasc₁
    refine ⟨_, m₂, ?_, hm₂, rfl, rfl, by simp [Layout.joinRow, asRows]⟩
    simp only [List.head?_cons, Option.map_some, Matrix.addNode_some, hadd, ok_bind, hjoin]
    rfl

/-- **The nodes of a row are added from left to right.** The induction is on the columns that are
still to come; the row so far is the last one of the layout. -/
theorem addPicked_from (h : Represents L [] m) {rows : List (List Cell)} {row : List Cell}
    {cs : List ColumnId} (hrows : L.rows = rows ++ asRows row) (hcs : ∀ c ∈ cs, c ∈ L.table.columns)
    (hasc : (row.map Cell.column ++ cs).Pairwise (· < ·)) :
    ∃ L' m', (cs.map fun c => (L.header c, c)).foldlM
        (fun (m, first?) (header, c) => do
          let (m, first) ← Matrix.addNode header c first? m
          return (m, some first)) (m, row.head?.map Cell.id) =
        .ok (m', (row ++ cellsFrom m.mesh.size cs).head?.map Cell.id) ∧
      Represents L' [] m' ∧ L'.headers = L.headers ∧ L'.keys = L.keys ∧
      L'.rows = rows ++ asRows (row ++ cellsFrom m.mesh.size cs) := by
  induction cs generalizing L m row with
  | nil =>
    rw [cellsFrom, List.append_nil]
    exact ⟨L, m, rfl, h, rfl, rfl, hrows⟩
  | cons c cs ih =>
    have hsplit : (row.map Cell.column ++ [c]) ++ cs = row.map Cell.column ++ c :: cs := by simp
    rw [← hsplit] at hasc
    obtain ⟨L₁, m₁, hadd, hm₁, hheaders, hkeys, hrows₁⟩ :=
      h.addNode hrows (hcs c (by simp)) (List.pairwise_append.mp hasc).1
    have htable : L₁.table.columns = L.table.columns := by simp [Table.columns, table, hkeys]
    have hheader : L₁.header = L.header := by
      funext d
      simp [header, hheaders]
    have hsize : m₁.mesh.size = m.mesh.size + 1 := by
      have hcells : L₁.rows.flatten.length = L.rows.flatten.length + 1 := by
        simp [hrows₁, hrows, Nat.add_assoc]
      rw [hm₁.size_eq, h.size_eq, Inventory.size, Inventory.size, inventory, inventory, hheaders,
        hcells, ← Nat.add_assoc]
    -- the node that is passed on is the first one of the row
    have hfirst : (row ++ [(⟨m.mesh.size, c⟩ : Cell)]).head?.map Cell.id =
        some ((row.head?.map Cell.id).getD m.mesh.size) := by cases row <;> rfl
    obtain ⟨L', m', hfold, hm', hheaders', hkeys', hrows'⟩ :=
      ih hm₁ hrows₁ (fun d hd => htable ▸ hcs d (by simp [hd])) (by simpa using hasc)
    have hcells : (row ++ [⟨m.mesh.size, c⟩]) ++ cellsFrom m₁.mesh.size cs =
        row ++ cellsFrom m.mesh.size (c :: cs) := by simp [cellsFrom, hsize]
    rw [hcells] at hfold hrows'
    refine ⟨L', m', ?_, hm', hheaders'.trans hheaders, hkeys'.trans hkeys, hrows'⟩
    rw [hheader, hfirst] at hfold
    simp only [List.map_cons, List.foldlM_cons, hadd, ok_bind]
    exact hfold

theorem addPicked (h : Represents L [] m) (keys : List String) :
    ∃ L' m', m.addPicked (Matrix.pick
        (L.table.columns.map fun c => (L.header c, c, L.table.key c)) keys) =
        .ok (m', (L.inventory.newRow keys).head?.map Cell.id) ∧
      Represents L' [] m' ∧ L'.inventory = L.inventory.addRow keys := by
  rw [Table.pick_eq, Inventory.newRow, ← h.size_eq]
  obtain ⟨L', m', hfold, hm', hheaders, hkeys, hrows⟩ :=
    h.addPicked_from (show L.rows = L.rows ++ asRows [] by simp [asRows])
      (fun c (hc : c ∈ L.table.meets keys) => Table.meets_sublist.subset hc)
      (by simpa using Table.meets_ascending)
  refine ⟨L', m', hfold, hm', ?_⟩
  rw [List.nil_append, h.size_eq] at hrows
  rw [inventory, hheaders, hkeys, hrows]
  rfl

/-- **A row is added after the last one.** Its first node is answered, if it has any. -/
theorem addRow (h : Represents L [] m) (keys : List String) :
    ∃ L' m', m.addRow keys = .ok (m', (L.inventory.newRow keys).head?.map Cell.id) ∧
      Represents L' [] m' ∧ L'.inventory = L.inventory.addRow keys := by
  obtain ⟨L', m', hadd, hm', hrow⟩ := h.addPicked keys
  refine ⟨L', m', ?_, hm', hrow⟩
  simp only [Matrix.addRow, h.labels, ok_bind, hadd]

end Represents

/-! ## Whole matrices -/

/-- What can be added to a matrix. -/
inductive Addition
  | column (key : String)
  | row (keys : List String)
  deriving DecidableEq, Repr

/-- The matrix after one addition. -/
def Matrix.add (m : Matrix) : Addition → Except Fault Matrix
  | .column key => return (← m.addColumn key).1
  | .row keys => return (← m.addRow keys).1

/-- The matrix that some additions lead to. -/
def Matrix.build (additions : List Addition) : Except Fault Matrix :=
  additions.foldlM Matrix.add Matrix.empty

namespace Inventory

def add (v : Inventory) : Addition → Inventory
  | .column key => v.addColumn key
  | .row keys => v.addRow keys

/-- The inventory that some additions lead to. -/
def build (additions : List Addition) : Inventory := additions.foldl add empty

/-- Nothing that was added is changed by another addition. -/
theorem grows_add (v : Inventory) (a : Addition) : v.Grows (v.add a) := by
  cases a with
  | column key => exact ⟨List.prefix_append .., List.prefix_append .., List.prefix_rfl⟩
  | row keys => exact ⟨List.prefix_rfl, List.prefix_rfl, List.prefix_append ..⟩

theorem grows_addAll (v : Inventory) (additions : List Addition) :
    v.Grows (additions.foldl add v) := by
  induction additions generalizing v with
  | nil => exact Grows.refl v
  | cons a additions ih => exact (v.grows_add a).trans (ih (v.add a))

/-- What was built first is still there when more was built. -/
theorem grows_build (additions later : List Addition) :
    (build additions).Grows (build (additions ++ later)) := by
  unfold build
  rw [List.foldl_append]
  exact grows_addAll _ later

/-- The inventory of a matrix that is given by its columns and its rows. -/
def ofRows (columns : List String) (rows : List (List String)) : Inventory :=
  build (columns.map Addition.column ++ rows.map Addition.row)

end Inventory

namespace Table

def add (t : Table) : Addition → Table
  | .column key => t.addColumn key
  | .row keys => t.addRow keys

/-- The table that some additions lead to. -/
def build (additions : List Addition) : Table := additions.foldl add empty

end Table

/-- The inventory and the table keep step, although each is built on its own. -/
theorem Inventory.table_build (additions : List Addition) :
    (Inventory.build additions).table = Table.build additions := by
  have hstep : ∀ (v : Inventory) a, v.table.add a = (v.add a).table := fun v a => by
    cases a with
    | column key => rfl
    | row keys => exact table_addRow.symm
  exact (List.foldl_hom Inventory.table hstep).symm

namespace Represents

variable {L : Layout} {m : Matrix}

open Layout

theorem add (h : Represents L [] m) (a : Addition) :
    ∃ L' m', m.add a = .ok m' ∧ Represents L' [] m' ∧ L'.inventory = L.inventory.add a := by
  cases a with
  | column key =>
    obtain ⟨m', hadd, hm'⟩ := h.addColumn key
    refine ⟨_, m', by simp [Matrix.add, hadd], hm', ?_⟩
    rw [Inventory.add, Inventory.addColumn, ← h.size_eq]
    rfl
  | row keys =>
    obtain ⟨L', m', hadd, hm', hrow⟩ := h.addRow keys
    exact ⟨L', m', by simp [Matrix.add, hadd], hm', hrow⟩

/-- All additions succeed, one after the other. Induction on the additions. -/
theorem addAll (h : Represents L [] m) (additions : List Addition) :
    ∃ L' m', additions.foldlM Matrix.add m = .ok m' ∧ Represents L' [] m' ∧
      L'.inventory = additions.foldl Inventory.add L.inventory := by
  induction additions generalizing L m with
  | nil => exact ⟨L, m, rfl, h, rfl⟩
  | cons a additions ih =>
    obtain ⟨L₁, m₁, hadd, hm₁, hinventory⟩ := h.add a
    obtain ⟨L', m', hrest, hm', hinventory'⟩ := ih hm₁
    refine ⟨L', m', by rw [List.foldlM_cons, hadd]; exact hrest, hm', ?_⟩
    rw [hinventory', hinventory]
    rfl

/-- Every matrix that can be built represents what its inventory says. -/
theorem buildInventory (additions : List Addition) :
    ∃ L m, Matrix.build additions = .ok m ∧ Represents L [] m ∧
      L.inventory = Inventory.build additions :=
  Represents.empty.addAll additions

/-- **Every matrix that can be built represents its table.** -/
theorem build (additions : List Addition) :
    ∃ L m, Matrix.build additions = .ok m ∧ Represents L [] m ∧ L.table = Table.build additions := by
  obtain ⟨L, m, hbuild, hm, hinventory⟩ := buildInventory additions
  refine ⟨L, m, hbuild, hm, ?_⟩
  rw [← Inventory.table_build, ← hinventory]
  rfl

/-- The labels that are listed before the first row are right for every row. -/
theorem addRows_eq (h : Represents L [] m) (rows : List (List String)) :
    rows.foldlM (fun m keys => return (← m.addPicked (Matrix.pick
        (L.table.columns.map fun c => (L.header c, c, L.table.key c)) keys)).1) m =
      (rows.map Addition.row).foldlM Matrix.add m := by
  induction rows generalizing L m with
  | nil => rfl
  | cons keys rows ih =>
    obtain ⟨L₁, m₁, hadd, hm₁, hrow⟩ := h.addPicked keys
    have hheaders : L₁.headers = L.headers := congrArg Inventory.headers hrow
    have hkeys : L₁.keys = L.keys := congrArg Inventory.keys hrow
    have hlabels : (fun c => (L₁.header c, c, L₁.table.key c)) =
        fun c => (L.header c, c, L.table.key c) := by
      funext c
      simp [header, hheaders, Table.key, table, hkeys]
    have hcolumns : L₁.table.columns = L.table.columns := by simp [Table.columns, table, hkeys]
    have hrest := ih hm₁
    rw [hlabels, hcolumns] at hrest
    have hone : m.add (.row keys) = .ok m₁ := by
      simp [Matrix.add, Matrix.addRow, h.labels, hadd]
    rw [List.foldlM_cons, List.map_cons, List.foldlM_cons, hadd, hone]
    exact hrest

end Represents

/-- **A matrix that is given by its columns and its rows is built from them,** the columns
first. -/
theorem Matrix.ofRows_eq_build (columns : List String) (rows : List (List String)) :
    Matrix.ofRows columns rows =
      Matrix.build (columns.map Addition.column ++ rows.map Addition.row) := by
  obtain ⟨L, m, hbuild, hm, -⟩ := Represents.buildInventory (columns.map Addition.column)
  have hcolumns : columns.foldlM (fun m key => return (← Matrix.addColumn key m).1) Matrix.empty =
      .ok m := by
    rw [Matrix.build, List.foldlM_map] at hbuild
    exact hbuild
  rw [Matrix.build, List.foldlM_append]
  rw [Matrix.build] at hbuild
  simp only [Matrix.ofRows, hcolumns, hbuild, ok_bind, hm.labels, hm.addRows_eq]

/-- To build from columns and rows is to add all columns first. -/
theorem Table.ofRows_eq_build (columns : List String) (rows : List (List String)) :
    Table.ofRows columns rows =
      Table.build (columns.map Addition.column ++ rows.map Addition.row) := by
  rw [Table.build, List.foldl_append, List.foldl_map, List.foldl_map]
  rfl

theorem Inventory.table_ofRows (columns : List String) (rows : List (List String)) :
    (Inventory.ofRows columns rows).table = Table.ofRows columns rows := by
  rw [Inventory.ofRows, Inventory.table_build, Table.ofRows_eq_build]

/-- A matrix that is given by its columns and its rows represents what its inventory says. -/
theorem Represents.ofRowsInventory (columns : List String) (rows : List (List String)) :
    ∃ L m, Matrix.ofRows columns rows = .ok m ∧ Represents L [] m ∧
      L.inventory = Inventory.ofRows columns rows := by
  rw [Matrix.ofRows_eq_build]
  exact Represents.buildInventory _

/-- **A matrix that is given by its columns and its rows represents their table.** -/
theorem Represents.ofRows (columns : List String) (rows : List (List String)) :
    ∃ L m, Matrix.ofRows columns rows = .ok m ∧ Represents L [] m ∧
      L.table = Table.ofRows columns rows := by
  rw [Matrix.ofRows_eq_build, Table.ofRows_eq_build]
  exact Represents.build _

end ExactCover
