import ExactCover.Proofs.Matrix.Covering

/-!
# Covering along links that change

A matrix lists the rows of a column and the nodes of a row before it works on them. Here are the
same operations as loops that follow the links from node to node, while they take nodes out or put
them back, until they are back at their start.

Each loop is given a number of steps, and it is a fault if they do not suffice. As many as there are
nodes suffice, and then any number of further ones makes no difference.

* **`InPlace.hidesRows`**: the loops along a row.
* **`InPlace.covers`**: the loops down a column, and so covering ends and uncovering restores.
* **`InPlace.coverRow_eq`**: the same for the columns of a row.
-/

namespace ExactCover

namespace InPlace

def hideRow (bound : Nat) (row : NodeId) : Matrix × Nat → Except Fault (Matrix × Nat)
  | (m, touched) => Mesh.loop (Node.next .across) (·.1.mesh) (counted fun id m => m.hide id) row bound
    row (m, touched + 1)

def unhideRow (bound : Nat) (row : NodeId) (m : Matrix) : Except Fault Matrix :=
  Mesh.loop (Node.prev .across) Matrix.mesh (fun id m => m.unhide id) row bound row m

/-- Covers a column, its rows from top to bottom. Answers how many nodes were touched. -/
def cover (bound : Nat) (c : ColumnId) (m : Matrix) : Except Fault (Matrix × Nat) := do
  let header := (← m.column c).header
  let m ← m.onMesh (Mesh.detach .across header)
  Mesh.loop (Node.next .down) (·.1.mesh) (hideRow bound) header bound header (m, 0)

/-- Uncovers a column, its rows from bottom to top. -/
def uncover (bound : Nat) (c : ColumnId) (m : Matrix) : Except Fault Matrix := do
  let header := (← m.column c).header
  let m ← Mesh.loop (Node.prev .down) Matrix.mesh (unhideRow bound) header bound header m
  m.onMesh (Mesh.attach .across header)

/-- Covers the columns of all nodes to the right of `row`. -/
def coverRow (bound : Nat) (row : NodeId) (m : Matrix) : Except Fault (Matrix × Nat) :=
  Mesh.loop (Node.next .across) (·.1.mesh) (Matrix.coverOf (cover bound)) row bound row (m, 0)

/-- Uncovers the columns of all nodes to the left of `row`. -/
def uncoverRow (bound : Nat) (row : NodeId) (m : Matrix) : Except Fault Matrix :=
  Mesh.loop (Node.prev .across) Matrix.mesh (Matrix.uncoverOf (uncover bound)) row bound row m

open Layout

variable {L : Layout} {covered : List ColumnId} {m : Matrix} {bound : Nat}

/-- The rest of a row is taken out of its columns, and put back from the other end. -/
theorem hidesRows (hbound : L.ids.length ≤ bound) :
    L.HidesRows covered (hideRow bound) (unhideRow bound) := by
  intro hid m u v x touched h hr hhid
  have hfuel : m.mesh.size ≤ bound := h.size ▸ hbound
  obtain ⟨⟨m', _⟩, hhides, ⟨hm', rfl⟩, hunhides⟩ :=
    ((h.row_retraceable hr hhid).counted (touched + 1)).loop (s := (m, touched + 1)) ⟨h, rfl⟩ hfuel
  refine ⟨m', ?_, hm', hunhides⟩
  have hlength : touched + (u ++ x :: v).length = touched + 1 + (v ++ u).length := by
    simp only [List.length_append, List.length_cons]
    omega
  rw [hlength]
  exact hhides

/-- **Covering a column that is left ends, and uncovering it next restores the matrix.** -/
theorem covers (hbound : L.ids.length ≤ bound) : L.Covers (cover bound) (uncover bound) := by
  intro covered m c h hc
  have hcolumn := (Table.mem_live.mp hc).1
  obtain ⟨m₁, hdetach, h₁, hattach⟩ := h.detachHead hc
  have hfuel : m₁.mesh.size ≤ bound := h₁.size ▸ hbound
  obtain ⟨⟨m', _⟩, hhides, ⟨h', -, rfl⟩, hunhides⟩ :=
    (rows_retraceable (hidesRows hbound) hc).loop (s := (m₁, 0)) ⟨h₁, by simp, rfl⟩ hfuel
  have h' : Represents L (c :: covered) m' := h'
  refine ⟨m', ?_, h', ?_⟩
  · rw [Represents.cost_table]
    simp only [cover, Shows.column_ok h hcolumn, ok_bind, hdetach]
    exact hhides
  · simp only [uncover, Shows.column_ok h' hcolumn, ok_bind, hunhides]
    exact hattach

/-- **Covering the columns of the rest of a row ends, and uncovering them undoes it.** -/
theorem coverRow_eq (hbound : L.ids.length ≤ bound) {u v : List Cell} {x : Cell}
    (h : Represents L covered m) (hr : u ++ x :: v ∈ L.rows)
    (hlive : ∀ z ∈ v ++ u, z.column ∉ covered) :
    ∃ m', coverRow bound x.id m = .ok (m', L.table.costAll covered ((v ++ u).map Cell.column)) ∧
      Represents L (((v ++ u).map Cell.column).reverse ++ covered) m' ∧
      uncoverRow bound x.id m' = .ok m :=
  (covers hbound).loop h hbound hr hlive

end InPlace

end ExactCover
