import ExactCover.Mesh

/-!
# Sparse matrices

A matrix of zeros and ones is kept as its ones alone. Node `0` of the mesh is the head; the heads
of the columns form the list across it, each row is a list across of its own, and every column is
the list down from its head.

```text
    head <> C1 <> C2 <> C3 <> ... <> head     across the head
            ||    ||    ||
         :> n  <> n  <  ||                    one row
            ||          ||
                  :> n <> n <                 another row
```

* **`Matrix.addColumn`, `Matrix.addRow`**: the only ways in which a matrix grows.
* **`Matrix.live`, `Matrix.columnNodes`, `Matrix.rowNodes`**: what the matrix holds, read off its
  lists. A column that is covered is not in the list of the head and so not live.
* **`Matrix.extent`**: the numbers of live columns and of the ones below them.
-/

namespace ExactCover

/-! ### Columns -/

/-- What is known of a column: the node at its head, the key of the constraint it stands for, and
how many nodes hang below its head now. -/
structure Column where
  header : NodeId
  key : String
  size : Nat
  deriving DecidableEq, Repr

namespace Column

/-- The column after `delta` nodes were added to it, or taken from it. A size counts nodes, so it
cannot fall below zero. -/
def adjust (c : Column) (delta : Int) : Except Fault Column :=
  if 0 ≤ (c.size : Int) + delta then .ok { c with size := ((c.size : Int) + delta).toNat }
  else .error (.negativeSize c.key)

def text (c : Column) : String := "(" ++ c.key ++ ", " ++ toString c.size ++ ")"

end Column

/-! ### The matrix -/

/-- A sparse matrix: its nodes, and its columns in the order in which they were added. Column `0`
is no constraint; it belongs to the head. -/
structure Matrix where
  mesh : Mesh
  columns : Array Column
  deriving DecidableEq, Repr

namespace Matrix

/-- The node that every list of column heads starts from. -/
def head : NodeId := 0

/-- The column that the head belongs to. No constraint has this column. -/
def headColumn : ColumnId := 0

/-- The matrix that holds the head alone. -/
def empty : Matrix where
  mesh := Mesh.empty.push headColumn true
  columns := #[{ header := head, key := "START", size := 0 }]

def column (m : Matrix) (c : ColumnId) : Except Fault Column :=
  match m.columns[c]? with
  | some col => .ok col
  | none => .error (.noSuchColumn c)

def onMesh (f : Mesh → Except Fault Mesh) : Matrix → Except Fault Matrix
  | ⟨mesh, columns⟩ => do return ⟨← f mesh, columns⟩

def adjustSize (c : ColumnId) (delta : Int) : Matrix → Except Fault Matrix
  | ⟨mesh, columns⟩ =>
    match columns[c]? with
    | some col => do return ⟨mesh, columns.setIfInBounds c (← col.adjust delta)⟩
    | none => .error (.noSuchColumn c)

/-- Appends a column after the last one. Keys are not compared: of several columns with one key,
rows and look-ups only ever find the first. -/
def addColumn (key : String) : Matrix → Except Fault (Matrix × ColumnId)
  | ⟨mesh, columns⟩ => do
    let header := mesh.size
    let mesh ← (mesh.push columns.size true).insertBefore .across header head
    return (⟨mesh, columns.push { header, key, size := 0 }⟩, columns.size)

/-! ### Reading the lists -/

def columnOf (m : Matrix) (id : NodeId) : Except Fault ColumnId := do
  return (← m.mesh.node id).column

/-- What is known of the column that a node belongs to. -/
def owner (m : Matrix) (id : NodeId) : Except Fault Column := do
  m.column (← m.columnOf id)

def live (m : Matrix) : Except Fault (List ColumnId) := do
  (← m.mesh.ring (Node.next .across) head).mapM m.columnOf

/-- The nodes below the head of a column, from top to bottom. -/
def columnNodes (m : Matrix) (c : ColumnId) : Except Fault (List NodeId) := do
  m.mesh.ring (Node.next .down) (← m.column c).header

/-- The nodes of the row through `id`, from `id` itself to the right. -/
def rowNodes (m : Matrix) (id : NodeId) : Except Fault (List NodeId) := do
  return id :: (← m.mesh.ring (Node.next .across) id)

/-- The keys of the columns that the row through `id` has a node in, from `id` to the right. -/
def rowKeys (m : Matrix) (id : NodeId) : Except Fault (List String) := do
  (← m.rowNodes id).mapM fun id => return (← m.owner id).key

/-- The first live column with this key. -/
def find? (m : Matrix) (key : String) : Except Fault (Option ColumnId) := do
  (← m.live).findM? fun c => return (← m.column c).key == key

/-- Whether any column has this key, covered or not. -/
def hasKey (m : Matrix) (key : String) : Bool :=
  (m.columns.toList.drop 1).any (·.key == key)

def columnCount (m : Matrix) : Nat := m.columns.size - 1

def isEmpty (m : Matrix) : Except Fault Bool := do
  return (← m.mesh.node head).right == head

/-- The number of live columns, and the number of nodes below their heads. -/
def extent (m : Matrix) : Except Fault (Nat × Nat) := do
  let live ← m.live
  let nodes ← live.mapM m.columnNodes
  return (live.length, nodes.flatten.length)

/-! ### Rows -/

/-- The heads under which a row with these keys has its nodes: going through the live columns in
order, the first column for each key that names one. A key is used up by the first column that
carries it, and a key that no column carries is passed over. -/
def pick : List (NodeId × ColumnId × String) → List String → List (NodeId × ColumnId)
  | [], _ => []
  | _, [] => []
  | (header, c, key) :: rest, keys =>
    if keys.contains key then (header, c) :: pick rest (keys.filter (· ≠ key)) else pick rest keys

/-- The heads of the live columns, each with its column and the key of that. -/
def labels (m : Matrix) : Except Fault (List (NodeId × ColumnId × String)) := do
  (← m.mesh.ring (Node.next .across) head).mapM fun header => do
    let c ← m.columnOf header
    return (header, c, (← m.column c).key)

/-- Adds one node at the bottom of a column and at the right end of the row that starts with
`first?`; where there is no such row yet, the node starts it. -/
def addNode (header : NodeId) (c : ColumnId) (first? : Option NodeId) :
    Matrix → Except Fault (Matrix × NodeId)
  | ⟨mesh, columns⟩ => do
    let id := mesh.size
    let mesh ← (mesh.push c false).insertBefore .down id header
    let m ← adjustSize c 1 ⟨mesh, columns⟩
    match first? with
    | none => return (m, id)
    | some first => return (← m.onMesh (Mesh.insertBefore .across id first), first)

/-- Adds a row with a node under each of the picked heads, in order. Answers the first node of the
row, or none if nothing was picked. -/
def addPicked (picked : List (NodeId × ColumnId)) (m : Matrix) :
    Except Fault (Matrix × Option NodeId) :=
  picked.foldlM (fun (m, first?) (header, c) => do
    let (m, first) ← m.addNode header c first?
    return (m, some first)) (m, none)

/-- Adds a row with a node in the first live column of each of the keys, in the order of the
columns. Answers the first node of the row, or none if no key names a live column; then nothing was
added. -/
def addRow (keys : List String) (m : Matrix) : Except Fault (Matrix × Option NodeId) := do
  m.addPicked (pick (← m.labels) keys)

/-- The matrix with these columns and these rows, in order. A row changes nothing about the heads,
so they are listed once for all rows. -/
def ofRows (columns : List String) (rows : List (List String)) : Except Fault Matrix := do
  let m ← columns.foldlM (fun m key => return (← addColumn key m).1) empty
  let labels ← m.labels
  rows.foldlM (fun m keys => return (← m.addPicked (pick labels keys)).1) m

end Matrix

end ExactCover
