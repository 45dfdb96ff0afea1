/-!
# Meshes

A mesh is an array of nodes, each of which sits in two circular, doubly linked lists at once: one
across the mesh and one down it. A node that is detached from a list keeps its own links, so that
attaching it again needs nothing but the node itself. That is the whole trick of dancing links:
detaching and attaching are inverse to each other as long as they are nested like brackets.

* **`Node`**: the four links, the column the node belongs to, and whether it heads that column.
* **`Axis`**: `next` and `prev` along an axis, so that each operation is written once for both.
* **`Mesh.detach`, `Mesh.attach`**: out of a list and back, by the node's own links.
* **`Mesh.ring`**: the nodes met on the way round a list.

Every access is checked. An identifier that names no node, or a list that does not lead back to
where it started, is a `Fault` and not a default value; so to say that an operation is safe is to
say that it answers `.ok`.
-/

namespace ExactCover

abbrev NodeId := Nat

/-- Position of a column in its matrix. Position `0` belongs to the head of the matrix. -/
abbrev ColumnId := Nat

inductive Fault
  /-- No node has this identifier. -/
  | noSuchNode (id : NodeId)
  /-- No column has this identifier. -/
  | noSuchColumn (id : ColumnId)
  /-- A walk was longer than any closed ring through this node can be. -/
  | openRing (start : NodeId)
  /-- The number of nodes in the column with this key would fall below zero. -/
  | negativeSize (key : String)
  /-- A search went deeper than there were columns to branch on. -/
  | tooDeep
  deriving DecidableEq, Repr

/-! ### Nodes -/

/-- The two directions in which nodes are chained: `across` a row, `down` a column. -/
inductive Axis
  | across
  | down
  deriving DecidableEq, Repr

structure Node where
  up : NodeId
  down : NodeId
  left : NodeId
  right : NodeId
  /-- The column the node belongs to; a column's head belongs to that column too. -/
  column : ColumnId
  /-- Whether the node is the head of its column. -/
  isHeader : Bool
  deriving DecidableEq, Repr

namespace Node

/-- A node that is alone in its list on either axis. -/
def alone (id : NodeId) (column : ColumnId) (isHeader : Bool) : Node :=
  { up := id, down := id, left := id, right := id, column, isHeader }

/-- The successor along an axis: the node to the right, or the one below. -/
def next : Axis → Node → NodeId
  | .across, n => n.right
  | .down, n => n.down

/-- The predecessor along an axis: the node to the left, or the one above. -/
def prev : Axis → Node → NodeId
  | .across, n => n.left
  | .down, n => n.up

def setNext : Axis → NodeId → Node → Node
  | .across, id, n => { n with right := id }
  | .down, id, n => { n with down := id }

def setPrev : Axis → NodeId → Node → Node
  | .across, id, n => { n with left := id }
  | .down, id, n => { n with up := id }

def links (n : Node) : List NodeId := [n.up, n.down, n.left, n.right]

@[simp] theorem next_setNext (a : Axis) (id : NodeId) (n : Node) : (n.setNext a id).next a = id := by
  cases a <;> rfl

@[simp] theorem prev_setPrev (a : Axis) (id : NodeId) (n : Node) : (n.setPrev a id).prev a = id := by
  cases a <;> rfl

@[simp] theorem next_setPrev (a b : Axis) (id : NodeId) (n : Node) :
    (n.setPrev a id).next b = n.next b := by
  cases a <;> cases b <;> rfl

@[simp] theorem prev_setNext (a b : Axis) (id : NodeId) (n : Node) :
    (n.setNext a id).prev b = n.prev b := by
  cases a <;> cases b <;> rfl

theorem next_setNext_of_ne {a b : Axis} (h : a ≠ b) (id : NodeId) (n : Node) :
    (n.setNext a id).next b = n.next b := by
  cases a <;> cases b <;> first | rfl | exact absurd rfl h

theorem prev_setPrev_of_ne {a b : Axis} (h : a ≠ b) (id : NodeId) (n : Node) :
    (n.setPrev a id).prev b = n.prev b := by
  cases a <;> cases b <;> first | rfl | exact absurd rfl h

@[simp] theorem column_setNext (a : Axis) (id : NodeId) (n : Node) :
    (n.setNext a id).column = n.column := by
  cases a <;> rfl

@[simp] theorem column_setPrev (a : Axis) (id : NodeId) (n : Node) :
    (n.setPrev a id).column = n.column := by
  cases a <;> rfl

end Node

/-! ### The mesh and its checked accesses -/

/-- All nodes, in the order in which they were made. -/
structure Mesh where
  nodes : Array Node
  deriving DecidableEq, Repr

namespace Mesh

def empty : Mesh := ⟨#[]⟩

/-- How many nodes were ever made, detached ones included. -/
def size (m : Mesh) : Nat := m.nodes.size

def node (m : Mesh) (id : NodeId) : Except Fault Node :=
  match m.nodes[id]? with
  | some n => .ok n
  | none => .error (.noSuchNode id)

def modify (m : Mesh) (id : NodeId) (f : Node → Node) : Except Fault Mesh :=
  if id < m.nodes.size then .ok ⟨m.nodes.modify id f⟩ else .error (.noSuchNode id)

/-- Adds a node that is alone on both axes; its identifier is the former size of the mesh. -/
def push (m : Mesh) (column : ColumnId) (isHeader : Bool) : Mesh :=
  ⟨m.nodes.push (.alone m.nodes.size column isHeader)⟩

@[simp] theorem size_push (m : Mesh) (column : ColumnId) (isHeader : Bool) :
    (m.push column isHeader).size = m.size + 1 := by
  simp [push, size]

/-! ### Into a list, out of it, and back -/

/-- Puts node `id` into the list of `anchor`, right before it. If `anchor` is the first node of its
list, this is the end of the list. -/
def insertBefore (axis : Axis) (id anchor : NodeId) (m : Mesh) : Except Fault Mesh := do
  let last := (← m.node anchor).prev axis
  let m ← m.modify id fun n => (n.setPrev axis last).setNext axis anchor
  -- the two neighbours are one node if the list held nothing else
  let m ← m.modify last (·.setNext axis id)
  m.modify anchor (·.setPrev axis id)

/-- Takes node `id` out of its list: its neighbours are linked to each other. The links of the node
itself stay as they are. -/
def detach (axis : Axis) (id : NodeId) (m : Mesh) : Except Fault Mesh := do
  let n ← m.node id
  let m ← m.modify (n.next axis) (·.setPrev axis (n.prev axis))
  m.modify (n.prev axis) (·.setNext axis (n.next axis))

/-- Puts node `id` back between the neighbours that its own links name. -/
def attach (axis : Axis) (id : NodeId) (m : Mesh) : Except Fault Mesh := do
  let n ← m.node id
  let m ← m.modify (n.prev axis) (·.setNext axis id)
  m.modify (n.next axis) (·.setPrev axis id)

/-! ### Going round a list -/

/-- The nodes met from `id` on, exclusive, until `start` comes round again. The first argument
bounds the number of steps. -/
def walk (m : Mesh) (step : Node → NodeId) (start : NodeId) : Nat → NodeId → Except Fault (List NodeId)
  | 0, _ => .error (.openRing start)
  | fuel + 1, id => do
    let id' := step (← m.node id)
    if id' = start then return [] else return id' :: (← walk m step start fuel id')

/-- The nodes met on the way from `start` round to `start` again, without `start` itself. Links do
not change under the walk, so one that takes more steps than there are nodes never closes. -/
def ring (m : Mesh) (step : Node → NodeId) (start : NodeId) : Except Fault (List NodeId) :=
  m.walk step start m.size start

end Mesh

end ExactCover
