import ExactCover.Matrix.Basic

/-!
# Covering columns

To cover a column is to say that its constraint is met: the column leaves the list of live columns,
and every row through it leaves all its other columns, since none of those rows can be chosen any
more. Uncovering walks the same nodes backwards and puts each one back by its own links.

* **`Matrix.cover`, `Matrix.uncover`**: one column.
* **`Matrix.coverRow`, `Matrix.uncoverRow`**: all other columns of one row, which is what choosing
  that row means once the column it was found in is covered.

Covering and uncovering undo each other only when they are nested like brackets.
-/

namespace ExactCover

namespace Matrix

/-! ### One node -/

def hide (m : Matrix) (id : NodeId) : Except Fault Matrix := do
  let c ← m.columnOf id
  adjustSize c (-1) (← m.onMesh (Mesh.detach .down id))

def unhide (m : Matrix) (id : NodeId) : Except Fault Matrix := do
  let c ← m.columnOf id
  (← adjustSize c 1 m).onMesh (Mesh.attach .down id)

/-! ### One column

The nodes below the head, and the nodes to the right of each of those, can be listed before they
are worked on: covering a column changes the lists down the other columns only, and uncovering
too. -/

/-- Takes all nodes to the right of `row` out of their columns. Answers how many nodes were
touched: these, and `row` itself. -/
def hideRow (m : Matrix) (row : NodeId) : Except Fault (Matrix × Nat) := do
  let members ← m.mesh.ring (Node.next .across) row
  return (← members.foldlM hide m, members.length + 1)

/-- Puts all nodes to the left of `row` back into their columns. -/
def unhideRow (m : Matrix) (row : NodeId) : Except Fault Matrix := do
  (← m.mesh.ring (Node.prev .across) row).foldlM unhide m

/-- Covers a column, its rows from top to bottom. Answers how many nodes were touched. -/
def cover (c : ColumnId) (m : Matrix) : Except Fault (Matrix × Nat) := do
  let header := (← m.column c).header
  let rows ← m.mesh.ring (Node.next .down) header
  -- only now do the rows leave the other columns; the column itself keeps them below its head
  let m ← m.onMesh (Mesh.detach .across header)
  rows.foldlM (fun (m, touched) row => do
    let (m, more) ← m.hideRow row
    return (m, touched + more)) (m, 0)

/-- Uncovers a column, its rows from bottom to top. -/
def uncover (c : ColumnId) (m : Matrix) : Except Fault Matrix := do
  let header := (← m.column c).header
  let rows ← m.mesh.ring (Node.prev .down) header
  let m ← rows.foldlM unhideRow m
  m.onMesh (Mesh.attach .across header)

/-! ### One row

Here the next node is read after the column of the last one was covered: if the walk started at the
head of a column, it goes along the very list that covering changes. -/

/-- How many steps a walk may take along a list that changes under it. Such a walk may meet a node
more than once and still come back. -/
def stepBound (m : Matrix) : Nat := m.mesh.size * m.mesh.size

/-- Covers the columns of the nodes after `id` until `start` comes round again. -/
def coverFrom (start : NodeId) : Nat → NodeId → Nat → Matrix → Except Fault (Matrix × Nat)
  | 0, _, _, _ => .error (.openRing start)
  | fuel + 1, id, touched, m => do
    let id' := (← m.mesh.node id).right
    if id' = start then return (m, touched)
    else
      let c ← m.columnOf id'
      let (m, more) ← m.cover c
      coverFrom start fuel id' (touched + more) m

/-- Covers the columns of all nodes to the right of `row`. Answers how many nodes were touched. -/
def coverRow (row : NodeId) (m : Matrix) : Except Fault (Matrix × Nat) :=
  let bound := m.stepBound
  coverFrom row bound row 0 m

/-- Uncovers the columns of the nodes before `id` until `start` comes round again. -/
def uncoverFrom (start : NodeId) : Nat → NodeId → Matrix → Except Fault Matrix
  | 0, _, _ => .error (.openRing start)
  | fuel + 1, id, m => do
    let id' := (← m.mesh.node id).left
    if id' = start then return m
    else
      let c ← m.columnOf id'
      uncoverFrom start fuel id' (← m.uncover c)

/-- Uncovers the columns of all nodes to the left of `row`. -/
def uncoverRow (row : NodeId) (m : Matrix) : Except Fault Matrix :=
  let bound := m.stepBound
  uncoverFrom row bound row m

end Matrix

end ExactCover
