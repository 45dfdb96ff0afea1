import ExactCover.Matrix.Basic
import ExactCover.Proofs.Mesh.Ring

/-!
# Work along a ring that can be retraced

Covering goes along a list and works on each of its nodes, and uncovering comes back along the list
and undoes the work. There are two ways to go along a list: to write its nodes down beforehand, and
to follow the links as they are when their turn comes. Both come to the same end if the work on each
node leaves alone the list that it is met on, and can be undone at once.

* **`Mesh.loop`**: a loop along links, the second of these ways.
* **`Retraceable`**: what is asked of the work.
* **`Retraceable.fold`**: work on nodes that were written down.
* **`Retraceable.loop`**: work on nodes that are found by their links. That such a loop comes back
  at all is not to be taken for granted, since the links change meanwhile.
-/

namespace ExactCover

open Mesh

/-! ## Loops -/

namespace Mesh

/-- Works on the nodes met from `id` on, exclusive, until `start` comes round again. The link to
follow from a node is read after the work on that node, whatever became of it. The number bounds the
steps. -/
def loop {β : Type} (step : Node → NodeId) (mesh : β → Mesh) (work : NodeId → β → Except Fault β)
    (start : NodeId) : Nat → NodeId → β → Except Fault β
  | 0, _, _ => .error (.openRing start)
  | fuel + 1, id, s => do
    let id' := step (← (mesh s).node id)
    if id' = start then return s
    else loop step mesh work start fuel id' (← work id' s)

section

variable {β : Type} {step : Node → NodeId} {mesh : β → Mesh} {work : NodeId → β → Except Fault β}
  {start id : NodeId} {s s' : β} {n : Node} {fuel : Nat}

/-- The loop ends where the link leads to the start. -/
theorem loop_stop (hn : (mesh s).node id = .ok n) (hstep : step n = start) :
    loop step mesh work start (fuel + 1) id s = .ok s := by
  simp [loop, hn, hstep]

/-- Otherwise it works on the node that the link leads to, and goes on from there. -/
theorem loop_next (hn : (mesh s).node id = .ok n) (hne : step n ≠ start)
    (hwork : work (step n) s = .ok s') :
    loop step mesh work start (fuel + 1) id s = loop step mesh work start fuel (step n) s' := by
  simp [loop, hn, hne, hwork]

end

end Mesh

/-! ## There and back -/

/-- What is asked of the work on some things and of its undoing, where `inv` holds after the work on
the first of them: the ring that they are met on is always there, and each piece of work succeeds
and can be undone at once. Beside the matrix, which `view` shows, the work may keep something
else. -/
structure Retraceable {α β : Type} (a : Axis) (start : NodeId) (node : α → NodeId) (xs : List α)
    (view : β → Matrix) (work : NodeId → β → Except Fault β)
    (undo : NodeId → Matrix → Except Fault Matrix) (inv : List α → β → Prop) : Prop where
  ring : ∀ done s, inv done s → IsRing (view s).mesh a start (xs.map node)
  step : ∀ done x rest s, xs = done ++ x :: rest → inv done s →
    ∃ s', work (node x) s = .ok s' ∧ inv (done ++ [x]) s' ∧ undo (node x) (view s') = .ok (view s)

namespace Retraceable

variable {α β : Type} {a : Axis} {start : NodeId} {node : α → NodeId} {xs : List α}
  {view : β → Matrix} {work : NodeId → β → Except Fault β}
  {undo : NodeId → Matrix → Except Fault Matrix} {inv : List α → β → Prop} {s : β}

/-- From where some of the things are done, the rest can be done, and undone in reverse order.
Induction on the rest. -/
theorem fold_from (htrip : Retraceable a start node xs view work undo inv) :
    ∀ {rest done : List α} {s : β}, xs = done ++ rest → inv done s →
      ∃ s', (rest.map node).foldlM (fun s id => work id s) s = .ok s' ∧ inv xs s' ∧
        (rest.map node).reverse.foldlM (fun m id => undo id m) (view s') = .ok (view s)
  | [], done, s, hxs, hs => by
    rw [List.append_nil] at hxs
    subst hxs
    exact ⟨s, rfl, hs, rfl⟩
  | x :: rest, done, s, hxs, hs => by
    obtain ⟨s₁, hwork, hs₁, hundo⟩ := htrip.step done x rest s hxs hs
    have hxs' : xs = (done ++ [x]) ++ rest := by simp [hxs]
    obtain ⟨s', hfold, hs', hback⟩ := htrip.fold_from hxs' hs₁
    refine ⟨s', ?_, hs', ?_⟩
    · rw [List.map_cons, List.foldlM_cons, hwork]
      exact hfold
    · rw [List.map_cons, List.reverse_cons, List.foldlM_append, hback]
      simp [hundo]

theorem fold (htrip : Retraceable a start node xs view work undo inv) (hs : inv [] s) :
    ∃ s', (xs.map node).foldlM (fun s id => work id s) s = .ok s' ∧ inv xs s' ∧
      (xs.map node).reverse.foldlM (fun m id => undo id m) (view s') = .ok (view s) :=
  htrip.fold_from (List.nil_append xs).symm hs

/-- The node that a loop comes to before the things `rest`: that of the first of them, or the start
if there are none. -/
def ahead (start : NodeId) (node : α → NodeId) (rest : List α) : NodeId :=
  (rest.map node).head?.getD start

theorem linked_ahead {m : Mesh} {done rest : List α} {front : List NodeId} {i : NodeId}
    (h : IsRing m a start ((done ++ rest).map node))
    (hfront : start :: done.map node = front ++ [i]) : Linked m a i (ahead start node rest) := by
  refine h.linked_of_split (u := front) (v := (rest.map node ++ [start]).tail) ?_
  rw [List.map_append, ← List.cons_append, hfront]
  cases rest <;> simp [ahead]

/-- From where some of the things are done, the loop does the rest, and the loop back along the
links that it leaves behind comes to where this one set out. Induction on the rest: the ring is the
same before and after each piece of work, so the link to follow from a node is not changed by it. -/
theorem loop_from (htrip : Retraceable a start node xs view work undo inv) :
    ∀ {rest done : List α} {front : List NodeId} {i : NodeId} {s : β} (fuel : Nat),
      xs = done ++ rest → start :: done.map node = front ++ [i] → inv done s →
      rest.length < fuel →
      ∃ s', Mesh.loop (Node.next a) (fun s => (view s).mesh) work start fuel i s = .ok s' ∧
        inv xs s' ∧
        ∀ fuel', Mesh.loop (Node.prev a) Matrix.mesh undo start (fuel' + rest.length) start
            (view s') =
          Mesh.loop (Node.prev a) Matrix.mesh undo start fuel' (ahead start node rest) (view s)
  | [], done, front, i, s, fuel + 1, hxs, hfront, hs, _ => by
    have h := htrip.ring done s hs
    rw [hxs] at h
    have hi : i ∈ start :: (done ++ []).map node := by simp [hfront]
    obtain ⟨n, hn, hnext⟩ := (linked_ahead h hfront).node_next (h.inside i hi)
    rw [List.append_nil] at hxs
    subst hxs
    exact ⟨s, loop_stop hn hnext, hs, fun _ => rfl⟩
  | x :: rest, done, front, i, s, fuel + 1, hxs, hfront, hs, hfuel => by
    have h := htrip.ring done s hs
    have hx : node x ∈ xs.map node := List.mem_map_of_mem (by simp [hxs])
    have hne : node x ≠ start := fun heq => h.start_notMem (heq ▸ hx)
    rw [hxs] at h
    have hi : i ∈ start :: (done ++ x :: rest).map node := by
      rw [List.map_append, ← List.cons_append, hfront]
      simp
    obtain ⟨n, hn, hnext : n.next a = node x⟩ := (linked_ahead h hfront).node_next (h.inside i hi)
    obtain ⟨s₁, hwork, hs₁, hundo⟩ := htrip.step done x rest s hxs hs
    have hxs' : xs = (done ++ [x]) ++ rest := by simp [hxs]
    have hfront' : start :: (done ++ [x]).map node = (start :: done.map node) ++ [node x] := by simp
    obtain ⟨s', hloop, hs', hback⟩ :=
      htrip.loop_from fuel hxs' hfront' hs₁ (Nat.lt_of_succ_lt_succ hfuel)
    refine ⟨s', ?_, hs', fun fuel' => ?_⟩
    · rw [← hloop, ← hnext]
      exact loop_next hn (hnext ▸ hne) (hnext ▸ hwork)
    · -- on the way back `x` comes before the rest, and is undone there
      have h₁ := htrip.ring _ s₁ hs₁
      rw [hxs'] at h₁
      have hlink := linked_ahead h₁ hfront'
      have hinside : ahead start node rest < (view s₁).mesh.size := by
        rw [← hlink.next]
        exact h₁.inside _ (h₁.linked (by simp)).2.2.1
      obtain ⟨n₁, hn₁, hprev⟩ := hlink.node_prev hinside
      rw [List.length_cons, ← Nat.add_assoc, Nat.add_right_comm, hback (fuel' + 1),
        loop_next hn₁ (hprev ▸ hne) (hprev ▸ hundo), hprev]
      rfl

/-- **The loop ends if it may take as many steps as there are nodes, and the loop the other way
round undoes it.** -/
theorem loop (htrip : Retraceable a start node xs view work undo inv) (hs : inv [] s) {fuel : Nat}
    (hfuel : (view s).mesh.size ≤ fuel) :
    ∃ s', Mesh.loop (Node.next a) (fun s => (view s).mesh) work start fuel start s = .ok s' ∧
      inv xs s' ∧
      Mesh.loop (Node.prev a) Matrix.mesh undo start fuel start (view s') = .ok (view s) := by
  have h : IsRing (view s).mesh a start (([] ++ xs).map node) := htrip.ring [] s hs
  have hlength : xs.length < fuel := by
    have hlt := h.length_lt
    rw [List.length_map] at hlt
    exact Nat.lt_of_lt_of_le hlt hfuel
  obtain ⟨s', hloop, hs', hback⟩ :=
    htrip.loop_from fuel (List.nil_append xs).symm (List.nil_append _).symm hs hlength
  refine ⟨s', hloop, hs', ?_⟩
  -- the loop back ends where the first of the things stands next to the start
  have hlink : Linked (view s).mesh a start (ahead start node xs) :=
    linked_ahead h (List.nil_append _).symm
  have hinside : ahead start node xs < (view s).mesh.size := by
    rw [← hlink.next]
    exact h.inside _ h.start_linked.2.2.1
  obtain ⟨n, hn, hprev⟩ := hlink.node_prev hinside
  obtain ⟨fuel', hfuel'⟩ := Nat.exists_eq_add_of_lt hlength
  have hfuel' : fuel = (fuel' + 1) + xs.length := by omega
  rw [hfuel', hback]
  exact loop_stop hn hprev

end Retraceable

/-! ## Counting -/

/-- The work on a node, with a count of the nodes that were worked on. -/
def counted (work : NodeId → Matrix → Except Fault Matrix) (id : NodeId) :
    Matrix × Nat → Except Fault (Matrix × Nat)
  | (m, count) => do return (← work id m, count + 1)

/-- Counting changes nothing else. -/
theorem Retraceable.counted {α : Type} {a : Axis} {start : NodeId} {node : α → NodeId}
    {xs : List α} {work undo : NodeId → Matrix → Except Fault Matrix} {inv : List α → Matrix → Prop}
    (htrip : Retraceable a start node xs id work undo inv) (count : Nat) :
    Retraceable a start node xs Prod.fst (counted work) undo
      fun done s => inv done s.1 ∧ s.2 = count + done.length where
  ring done s hs := htrip.ring done s.1 hs.1
  step done x rest s hxs hs := by
    obtain ⟨m, n⟩ := s
    obtain ⟨hm, rfl⟩ := hs
    obtain ⟨m', hwork, hm', hundo⟩ := htrip.step done x rest m hxs hm
    refine ⟨(m', count + done.length + 1), ?_, ⟨hm', ?_⟩, hundo⟩
    · simp only [ExactCover.counted, hwork, ok_bind, pure_eq_ok]
    · rw [List.length_append, List.length_singleton, Nat.add_assoc]

end ExactCover
