import ExactCover.Mesh
import ExactCover.Proofs.Steps

/-!
# The links of a mesh as functions

A mesh answers two questions about a node: which node comes after it along an axis, and which one
before it. Here these answers are total functions, `Mesh.next` and `Mesh.prev`, and every operation
on a mesh is given by what it does to them:

* **`Mesh.ext_links`**: a mesh is determined by its links and its labels.
* **`Mesh.detach_eq`, `Mesh.attach_eq`, `Mesh.insertBefore_eq`**: inside the mesh the checked
  operations succeed, and yield `Mesh.unlink`, `Mesh.relink` and `Mesh.splice`.
* **`Mesh.relink_unlink`**: a node that its neighbours point at can be taken out and put back, and
  then nothing has changed. The links that the node keeps while it is out are all that is needed.
-/

namespace ExactCover

namespace Mesh

/-! ## Views -/

/-- The successor of a node along an axis. A node outside the mesh is its own successor. -/
def next (a : Axis) (m : Mesh) (i : NodeId) : NodeId := (m.nodes[i]?.map (Node.next a)).getD i

/-- The predecessor of a node along an axis. A node outside the mesh is its own predecessor. -/
def prev (a : Axis) (m : Mesh) (i : NodeId) : NodeId := (m.nodes[i]?.map (Node.prev a)).getD i

/-- What no change of links touches: the column of a node, and whether it heads that column. -/
def label (m : Mesh) (i : NodeId) : Option (ColumnId × Bool) :=
  m.nodes[i]?.map fun n => (n.column, n.isHeader)

/-- A node of the mesh shows its links and its label. -/
theorem exists_node {m : Mesh} {i : NodeId} (h : i < m.size) :
    ∃ n, m.node i = .ok n ∧ (∀ a, n.next a = m.next a i) ∧ (∀ a, n.prev a = m.prev a i) ∧
      m.label i = some (n.column, n.isHeader) := by
  have hget : m.nodes[i]? = some m.nodes[i] := Array.getElem?_eq_getElem h
  refine ⟨m.nodes[i], ?_, fun a => ?_, fun a => ?_, ?_⟩
  · simp [node, hget]
  · simp [next, hget]
  · simp [prev, hget]
  · simp [label, hget]

/-- A node that has a label is in the mesh. -/
theorem lt_size_of_label {m : Mesh} {i : NodeId} {c : ColumnId} {isHeader : Bool}
    (h : m.label i = some (c, isHeader)) : i < m.size := by
  obtain ⟨n, hn, -⟩ := Option.map_eq_some_iff.mp h
  exact (Array.getElem?_eq_some_iff.mp hn).1

/-- The column of a node can be read where its label is known. -/
theorem node_column_of_label {m : Mesh} {i : NodeId} {c : ColumnId} {isHeader : Bool}
    (h : m.label i = some (c, isHeader)) : ∃ n, m.node i = .ok n ∧ n.column = c := by
  obtain ⟨n, hn, -, -, hlabel⟩ := exists_node (lt_size_of_label h)
  rw [hlabel] at h
  exact ⟨n, hn, (Prod.mk.inj (Option.some.inj h)).1⟩

/-- What a node says of itself is its label. -/
theorem label_of_node {m : Mesh} {i : NodeId} {n : Node} (h : m.node i = .ok n) :
    m.label i = some (n.column, n.isHeader) := by
  unfold node at h
  split at h
  case h_1 n' hget =>
    cases h
    simp [label, hget]
  case h_2 => cases h

/-- **A mesh is determined by its links and its labels.** -/
theorem ext_links {m m' : Mesh} (hlabel : ∀ i, m.label i = m'.label i)
    (hnext : ∀ a i, m.next a i = m'.next a i) (hprev : ∀ a i, m.prev a i = m'.prev a i) :
    m = m' := by
  obtain ⟨nodes⟩ := m
  obtain ⟨nodes'⟩ := m'
  congr 1
  refine Array.ext_getElem? fun i => ?_
  have hl := hlabel i
  have hn := fun a => hnext a i
  have hp := fun a => hprev a i
  simp only [label, next, prev] at hl hn hp
  cases h : nodes[i]? with
  | none =>
    rw [h] at hl
    exact (Option.map_eq_none_iff.mp hl.symm).symm
  | some n =>
    rw [h] at hl
    obtain ⟨n', h', hnn⟩ := Option.map_eq_some_iff.mp hl.symm
    rw [h, h'] at hn hp
    obtain ⟨hcolumn, hheader⟩ := Prod.mk.inj hnn
    -- the two links along each of the two axes are all that a node has
    have hright : n.right = n'.right := hn .across
    have hdown : n.down = n'.down := hn .down
    have hleft : n.left = n'.left := hp .across
    have hup : n.up = n'.up := hp .down
    rw [h']
    cases n; cases n'; simp_all

/-! ## One link at a time -/

/-- The mesh after a node got another successor. -/
def linkNext (a : Axis) (i j : NodeId) (m : Mesh) : Mesh := ⟨m.nodes.modify i (·.setNext a j)⟩

/-- The mesh after a node got another predecessor. -/
def linkPrev (a : Axis) (i j : NodeId) (m : Mesh) : Mesh := ⟨m.nodes.modify i (·.setPrev a j)⟩

section Link

variable {m : Mesh} {a b : Axis} {i j k : NodeId}

/-- The checked change of one link, on a node that is there. -/
theorem modify_setNext (h : i < m.size) : m.modify i (·.setNext a j) = .ok (m.linkNext a i j) :=
  if_pos h

theorem modify_setPrev (h : i < m.size) : m.modify i (·.setPrev a j) = .ok (m.linkPrev a i j) :=
  if_pos h

@[simp] theorem size_linkNext : (m.linkNext a i j).size = m.size := by simp [linkNext, size]

@[simp] theorem size_linkPrev : (m.linkPrev a i j).size = m.size := by simp [linkPrev, size]

/-- A change of links keeps all labels, so the columns of nodes can be read at any time. -/
@[simp] theorem label_linkNext : (m.linkNext a i j).label k = m.label k := by
  simp only [label, linkNext, Array.getElem?_modify]
  split
  · simp [Function.comp_def]; cases a <;> rfl
  · rfl

@[simp] theorem label_linkPrev : (m.linkPrev a i j).label k = m.label k := by
  simp only [label, linkPrev, Array.getElem?_modify]
  split
  · simp [Function.comp_def]; cases a <;> rfl
  · rfl

/-- One link of one node is changed. This lemma and the one for predecessors are all that is used of
the nodes themselves; what several changes do follows from them by rewriting. -/
theorem next_linkNext (h : i < m.size) :
    (m.linkNext a i j).next b k = if b = a ∧ k = i then j else m.next b k := by
  simp only [next, linkNext, Array.getElem?_modify]
  by_cases hk : i = k
  · subst hk
    have hget : m.nodes[i]? = some m.nodes[i] := Array.getElem?_eq_getElem h
    by_cases hb : b = a
    · subst hb; simp [hget]
    · simp [hget, hb, Node.next_setNext_of_ne (Ne.symm hb)]
  · simp [hk, Ne.symm hk]

/-- The two directions are kept apart: the predecessors do not see that a successor was changed. -/
@[simp] theorem prev_linkNext : (m.linkNext a i j).prev b k = m.prev b k := by
  simp only [prev, linkNext, Array.getElem?_modify]
  split
  · simp [Function.comp_def]
  · rfl

theorem prev_linkPrev (h : i < m.size) :
    (m.linkPrev a i j).prev b k = if b = a ∧ k = i then j else m.prev b k := by
  simp only [prev, linkPrev, Array.getElem?_modify]
  by_cases hk : i = k
  · subst hk
    have hget : m.nodes[i]? = some m.nodes[i] := Array.getElem?_eq_getElem h
    by_cases hb : b = a
    · subst hb; simp [hget]
    · simp [hget, hb, Node.prev_setPrev_of_ne (Ne.symm hb)]
  · simp [hk, Ne.symm hk]

@[simp] theorem next_linkPrev : (m.linkPrev a i j).next b k = m.next b k := by
  simp only [next, linkPrev, Array.getElem?_modify]
  split
  · simp [Function.comp_def]
  · rfl

end Link

/-! ## Out of a list and back -/

/-- The mesh after a node was taken out of its list. -/
def unlink (a : Axis) (i : NodeId) (m : Mesh) : Mesh :=
  (m.linkPrev a (m.next a i) (m.prev a i)).linkNext a (m.prev a i) (m.next a i)

/-- The mesh after a node was put back between the neighbours that its own links name. -/
def relink (a : Axis) (i : NodeId) (m : Mesh) : Mesh :=
  (m.linkNext a (m.prev a i) i).linkPrev a (m.next a i) i

section Unlink

variable {m : Mesh} {a b : Axis} {i j : NodeId}

@[simp] theorem size_unlink : (m.unlink a i).size = m.size := by simp [unlink]

@[simp] theorem label_unlink : (m.unlink a i).label j = m.label j := by simp [unlink]

/-- Of the successors only that of the node before changes. The node itself keeps its own, and so it
can be put back. -/
theorem next_unlink (h : m.prev a i < m.size) :
    (m.unlink a i).next b j = if b = a ∧ j = m.prev a i then m.next a i else m.next b j := by
  simp [unlink, next_linkNext, h]

/-- Of the predecessors only that of the node after changes. -/
theorem prev_unlink (h : m.next a i < m.size) :
    (m.unlink a i).prev b j = if b = a ∧ j = m.next a i then m.prev a i else m.prev b j := by
  simp [unlink, prev_linkPrev, h]

/-- Where a node and its neighbours are in the mesh, taking it out cannot fail. -/
theorem detach_eq (hi : i < m.size) (hnext : m.next a i < m.size) (hprev : m.prev a i < m.size) :
    m.detach a i = .ok (m.unlink a i) := by
  obtain ⟨n, hn, hnn, hnp, -⟩ := exists_node hi
  -- the neighbour after the node is changed first, the one before it next
  simp only [detach, hn, ok_bind, hnn, hnp, modify_setPrev hnext]
  exact modify_setNext (by simpa using hprev)

/-- Putting a node back cannot fail there either. Which neighbours these are is read from the node,
so no list has to be searched. -/
theorem attach_eq (hi : i < m.size) (hnext : m.next a i < m.size) (hprev : m.prev a i < m.size) :
    m.attach a i = .ok (m.relink a i) := by
  obtain ⟨n, hn, hnn, hnp, -⟩ := exists_node hi
  simp only [attach, hn, ok_bind, hnn, hnp, modify_setNext hprev]
  exact modify_setPrev (by simpa using hnext)

/-- **Taking a node out is undone by putting it back,** if both its neighbours pointed at it. The
mesh is the one from before, with all links of all nodes. -/
theorem relink_unlink (hnext : m.next a i < m.size) (hprev : m.prev a i < m.size)
    (hafter : m.prev a (m.next a i) = i) (hbefore : m.next a (m.prev a i) = i) :
    (m.unlink a i).relink a i = m := by
  -- the node's own links survive, even where it is its own neighbour
  have hn : (m.unlink a i).next a i = m.next a i := by
    rw [next_unlink hprev]; split <;> rfl
  have hp : (m.unlink a i).prev a i = m.prev a i := by
    rw [prev_unlink hnext]; split <;> rfl
  refine ext_links (fun j => by simp [relink]) (fun b j => ?_) (fun b j => ?_)
  · simp only [relink, next_linkPrev]
    rw [next_linkNext (by simpa [hp] using hprev), hp, next_unlink hprev]
    by_cases h : b = a ∧ j = m.prev a i
    · obtain ⟨rfl, rfl⟩ := h; simp [hbefore]
    · simp [h]
  · simp only [relink]
    rw [prev_linkPrev (by simpa [hn] using hnext), hn, prev_linkNext, prev_unlink hnext]
    by_cases h : b = a ∧ j = m.next a i
    · obtain ⟨rfl, rfl⟩ := h; simp [hafter]
    · simp [h]

end Unlink

/-! ## New nodes -/

section Push

variable {m : Mesh} {c : ColumnId} {isHeader : Bool} {a : Axis} {i : NodeId}

/-- A new node is its own neighbour, as it was when it did not exist. -/
@[simp] theorem next_push : (m.push c isHeader).next a i = m.next a i := by
  simp only [next, push, Array.getElem?_push]
  split
  · next h => subst h; cases a <;> simp [Node.alone, Node.next]
  · rfl

@[simp] theorem prev_push : (m.push c isHeader).prev a i = m.prev a i := by
  simp only [prev, push, Array.getElem?_push]
  split
  · next h => subst h; cases a <;> simp [Node.alone, Node.prev]
  · rfl

/-- The new node has the label that it was made with, and the others keep theirs. -/
theorem label_push :
    (m.push c isHeader).label i = if i = m.size then some (c, isHeader) else m.label i := by
  simp only [label, push, Array.getElem?_push, size]
  by_cases h : i = m.nodes.size
  · simp [h, Node.alone]
  · simp [h]

end Push

/-- The mesh after a node was put right before another one. -/
def splice (a : Axis) (i anchor : NodeId) (m : Mesh) : Mesh :=
  (((m.linkPrev a i (m.prev a anchor)).linkNext a i anchor).linkNext a (m.prev a anchor) i).linkPrev
    a anchor i

section Splice

variable {m : Mesh} {a b : Axis} {i j anchor : NodeId}

@[simp] theorem size_splice : (m.splice a i anchor).size = m.size := by simp [splice]

@[simp] theorem label_splice : (m.splice a i anchor).label j = m.label j := by simp [splice]

/-- Two successors change: that of the node before the anchor, and that of the node that was put
in. -/
theorem next_splice (hi : i < m.size) (hprev : m.prev a anchor < m.size) :
    (m.splice a i anchor).next b j =
      if b = a ∧ j = m.prev a anchor then i else if b = a ∧ j = i then anchor else m.next b j := by
  simp only [splice, next_linkPrev]
  rw [next_linkNext (by simpa using hprev), next_linkNext (by simpa using hi), next_linkPrev]

/-- Two predecessors change: that of the anchor, and that of the node that was put in. -/
theorem prev_splice (hi : i < m.size) (hanchor : anchor < m.size) :
    (m.splice a i anchor).prev b j =
      if b = a ∧ j = anchor then i else if b = a ∧ j = i then m.prev a anchor else m.prev b j := by
  simp only [splice]
  rw [prev_linkPrev (by simpa using hanchor), prev_linkNext, prev_linkNext, prev_linkPrev hi]

/-- Inside the mesh a node can be put before any other one. Nothing is asked of the links of the new
node, which are overwritten. -/
theorem insertBefore_eq (hi : i < m.size) (hanchor : anchor < m.size)
    (hprev : m.prev a anchor < m.size) :
    m.insertBefore a i anchor = .ok (m.splice a i anchor) := by
  obtain ⟨n, hn, -, hnp, -⟩ := exists_node hanchor
  -- both links of the new node are set in one step
  have hboth : (m.modify i fun n => (n.setPrev a (m.prev a anchor)).setNext a anchor) =
      .ok ((m.linkPrev a i (m.prev a anchor)).linkNext a i anchor) := by
    rw [modify, if_pos (show i < m.nodes.size from hi)]
    simp only [linkPrev, linkNext]
    congr 2
    refine Array.ext_getElem? fun k => ?_
    simp only [Array.getElem?_modify]
    split <;> simp [Function.comp_def]
  simp only [insertBefore, hn, ok_bind, hnp, hboth]
  rw [modify_setNext (by simpa using hprev), ok_bind]
  exact modify_setPrev (by simpa using hanchor)

end Splice

end Mesh

end ExactCover
