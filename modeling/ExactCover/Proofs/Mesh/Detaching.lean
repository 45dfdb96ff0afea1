import ExactCover.Proofs.Mesh.Ring
import Mathlib.Data.Fintype.Pigeonhole
import Mathlib.Dynamics.PeriodicPts.Defs

/-!
# Many nodes out of their lists

Nodes can be taken out of their lists in any order, along both axes in turn. The links that a node
keeps while it is out may lead to nodes that are out as well, and still all of them can be put back:
when a node is put back, what was taken out after it is in its list again, and so its links lead to
the very neighbours that it was taken from.

* **`Mesh.IsWhole`**: every node and its neighbours name each other.
* **`Mesh.IsWhole.exists_ring`**: then every node is in a closed list, along either axis.
* **`Mesh.Thinned`**: the invariant. Every list that is left is the one from before without the
  nodes taken out of it.
* **`Mesh.Thinned.detach`**: what taking out one more node preserves.
* **`Mesh.detachAll_thins`**: the result for every mesh that is whole and all nodes taken out.
-/

namespace ExactCover

namespace Mesh

/-! ## Meshes without loose ends -/

/-- Every node and its neighbours name each other, along both axes. -/
def IsWhole (m : Mesh) : Prop := ∀ a, ∀ i < m.size, m.Mutual a i

instance (m : Mesh) (a : Axis) (i : NodeId) : Decidable (m.Mutual a i) :=
  match hn : m.node i with
  | .error _ => isFalse (by simp [Mutual, hn])
  | .ok n =>
    match hfollowing : m.node (n.next a), hpreceding : m.node (n.prev a) with
    | .ok following, .ok preceding =>
      decidable_of_iff (following.prev a = i ∧ preceding.next a = i)
        (by simp [Mutual, hn, hfollowing, hpreceding])
    | .error _, _ => isFalse (by simp [Mutual, hn, hfollowing])
    | _, .error _ => isFalse (by simp [Mutual, hn, hpreceding])

section Whole

variable {m : Mesh} {a : Axis} {i : NodeId}

/-- What a node shows is what the views of the mesh answer. -/
theorem views_of_node {n : Node} (h : m.node i = .ok n) :
    i < m.size ∧ n.next a = m.next a i ∧ n.prev a = m.prev a i := by
  have hi := lt_size_of_label (label_of_node h)
  obtain ⟨n', hn', hnext, hprev, -⟩ := exists_node hi
  cases h.symm.trans hn'
  exact ⟨hi, hnext a, hprev a⟩

theorem Mutual.neighbours (h : m.Mutual a i) :
    m.next a i < m.size ∧ m.prev a i < m.size ∧ m.prev a (m.next a i) = i ∧
      m.next a (m.prev a i) = i := by
  obtain ⟨n, following, preceding, hn, hfollowing, hpreceding, hback, hforth⟩ := h
  obtain ⟨-, hnext, hprev⟩ := views_of_node (a := a) hn
  obtain ⟨hnextSize, -, hfprev⟩ := views_of_node (a := a) hfollowing
  obtain ⟨hprevSize, hpnext, -⟩ := views_of_node (a := a) hpreceding
  rw [hnext] at hnextSize hfprev
  rw [hprev] at hprevSize hpnext
  exact ⟨hnextSize, hprevSize, hfprev.symm.trans hback, hpnext.symm.trans hforth⟩

/-- Going forth and back again leads to where one was. Outside the mesh nothing is linked. -/
theorem IsWhole.leftInverse (h : m.IsWhole) : Function.LeftInverse (m.prev a) (m.next a) := by
  intro i
  by_cases hi : i < m.size
  · exact (h a i hi).neighbours.2.2.1
  · have hget : m.nodes[i]? = none := Array.getElem?_eq_none (Nat.le_of_not_lt hi)
    have hnext : m.next a i = i := by simp [next, hget]
    rw [hnext]
    simp [prev, hget]

theorem IsWhole.iterate_lt (h : m.IsWhole) (hi : i < m.size) (k : Nat) :
    (m.next a)^[k] i < m.size := by
  induction k with
  | zero => exact hi
  | succ k ih =>
    rw [Function.iterate_succ_apply']
    exact (h a _ ih).neighbours.1

/-- **Every node of a whole mesh is in a closed list.** There are no more nodes to meet than the
mesh has, and no two of them have one successor, so the first one to come twice is the start. -/
theorem IsWhole.exists_ring (h : m.IsWhole) (hi : i < m.size) : ∃ l, IsRing m a i l := by
  have hinjective : Function.Injective (m.next a) := h.leftInverse.injective
  have hperiodic : i ∈ Function.periodicPts (m.next a) := by
    obtain ⟨j, k, hne, heq⟩ := Finite.exists_ne_map_eq_of_infinite
      fun k : Nat => (⟨(m.next a)^[k] i, h.iterate_lt hi k⟩ : Fin m.size)
    have heq' : (m.next a)^[j] i = (m.next a)^[k] i := congrArg Fin.val heq
    rcases Nat.lt_or_gt_of_ne hne with hlt | hlt
    · exact Function.mk_mem_periodicPts (Nat.sub_pos_of_lt hlt)
        (Function.iterate_cancel hinjective heq'.symm)
    · exact Function.mk_mem_periodicPts (Nat.sub_pos_of_lt hlt)
        (Function.iterate_cancel hinjective heq')
  -- the orbit of the node is the list, written from the node on
  obtain ⟨q, hq⟩ := Nat.exists_eq_succ_of_ne_zero
    (Function.minimalPeriod_pos_of_mem_periodicPts hperiodic).ne'
  have horbit : Function.periodicOrbit (m.next a) i =
      (i :: (List.range q).map fun k => (m.next a)^[k + 1] i : List NodeId) := by
    rw [Function.periodicOrbit_def, hq, List.range_succ_eq_map, List.map_cons, List.map_map]
    rfl
  refine ⟨(List.range q).map fun k => (m.next a)^[k + 1] i, ?_, ?_, ?_⟩
  · have hchain : (Function.periodicOrbit (m.next a) i).Chain (Linked m a) := by
      refine (Function.periodicOrbit_chain' _ hperiodic).mpr fun k => ?_
      rw [Function.iterate_succ_apply']
      exact ⟨rfl, h.leftInverse _⟩
    rw [horbit, Cycle.chain_coe_cons] at hchain
    exact hchain
  · have hnodup : (Function.periodicOrbit (m.next a) i).Nodup := Function.nodup_periodicOrbit
    rw [horbit, Cycle.nodup_coe_iff] at hnodup
    exact hnodup
  · intro j hj
    rcases List.mem_cons.mp hj with rfl | hj
    · exact hi
    · obtain ⟨k, -, rfl⟩ := List.mem_map.mp hj
      exact h.iterate_lt hi (k + 1)

end Whole

/-! ## Taking nodes out and putting them back -/

/-- Takes nodes out of their lists, one after the other, each along an axis. -/
def detachAll (removals : List (Axis × NodeId)) (m : Mesh) : Except Fault Mesh :=
  removals.foldlM (fun m (axis, id) => m.detach axis id) m

/-- Puts nodes back into their lists, one after the other, each along an axis. -/
def attachAll (removals : List (Axis × NodeId)) (m : Mesh) : Except Fault Mesh :=
  removals.foldlM (fun m (axis, id) => m.attach axis id) m

/-- What is left of a list along an axis after some nodes were taken out. -/
def remaining (removals : List (Axis × NodeId)) (a : Axis) (l : List NodeId) : List NodeId :=
  l.filter fun i => (a, i) ∉ removals

/-- The mesh `m'` is `m` without the nodes taken out: a node that is in its list along an axis still
meets the others that are, in their old order. -/
def Thinned (m : Mesh) (removals : List (Axis × NodeId)) (m' : Mesh) : Prop :=
  ∀ a i l, (a, i) ∉ removals → IsRing m a i l → IsRing m' a i (remaining removals a l)

section Removals

variable {m m' : Mesh} {removals : List (Axis × NodeId)} {a b : Axis} {i x : NodeId}
  {l : List NodeId}

theorem detachAll_append : m.detachAll (removals ++ [(a, i)]) =
    (do (← m.detachAll removals).detach a i) := by
  rw [detachAll, List.foldlM_append]
  refine bind_congr fun m' => ?_
  rw [List.foldlM_cons]
  exact bind_pure _

theorem attachAll_cons : m.attachAll ((a, i) :: removals) =
    (do (← m.attach a i).attachAll removals) := by
  rw [attachAll, List.foldlM_cons]
  rfl

theorem remaining_append_self :
    remaining (removals ++ [(a, x)]) a l = (remaining removals a l).filter (· ≠ x) := by
  rw [remaining, remaining, List.filter_filter]
  refine List.filter_congr fun i _ => ?_
  simp [and_comm]

theorem remaining_append_of_ne (hab : a ≠ b) :
    remaining (removals ++ [(b, x)]) a l = remaining removals a l := by
  refine List.filter_congr fun i _ => ?_
  simp [hab]

theorem Thinned.refl (m : Mesh) : Thinned m [] m := by
  intro a i l _ h
  rw [remaining, List.filter_eq_self.mpr (by simp)]
  exact h

/-- **One more node can be taken out, and put back at once.** Its own list loses it; the other lists
along the axis do not have it, and those along the other axis keep their links. -/
theorem Thinned.detach (hm : m.IsWhole) (h : Thinned m removals m') (hx : x < m.size)
    (hfresh : (b, x) ∉ removals) :
    ∃ m'', m'.detach b x = .ok m'' ∧ Thinned m (removals ++ [(b, x)]) m'' ∧
      m''.attach b x = .ok m' ∧
      ∀ a, a ≠ b → ∀ i, m''.next a i = m'.next a i ∧ m''.prev a i = m'.prev a i := by
  obtain ⟨k, hk⟩ := hm.exists_ring (a := b) hx
  have hown := h b x k hfresh hk
  obtain ⟨-, -, hnext, hprev⟩ := hown.start_linked
  obtain ⟨hdetach, hattach⟩ := hown.detach List.mem_cons_self
  refine ⟨m'.unlink b x, hdetach, fun a i l hi hring => ?_, hattach, fun a hab i => ⟨?_, ?_⟩⟩
  · rw [List.mem_append, List.mem_singleton, not_or] at hi
    have hleft := h a i l hi.1 hring
    by_cases hab : a = b
    · subst hab
      have hxi : x ≠ i := fun heq => hi.2 (heq ▸ rfl)
      rw [remaining_append_self]
      by_cases hxl : x ∈ remaining removals a l
      · exact hleft.unlink hxl
      · have hsame : (remaining removals a l).filter (· ≠ x) = remaining removals a l :=
          List.filter_eq_self.mpr fun j hj => by simpa using fun heq : j = x => hxl (heq ▸ hj)
        rw [hsame]
        exact hleft.unlink_of_notMem hown List.mem_cons_self (by simp [hxi, hxl])
    · rw [remaining_append_of_ne hab]
      exact hleft.unlink_of_ne hab (hown.inside _ hnext) (hown.inside _ hprev)
  · rw [next_unlink (hown.inside _ hprev), if_neg (fun hn => hab hn.1)]
  · rw [prev_unlink (hown.inside _ hnext), if_neg (fun hn => hab hn.1)]

/-- **Any nodes can be taken out, and put back in reverse order.** Induction on the nodes, from the
last one: it is the first to be put back. -/
theorem Thinned.detachAll (hm : m.IsWhole) (hinside : ∀ r ∈ removals, r.2 < m.size)
    (hnodup : removals.Nodup) :
    ∃ m', m.detachAll removals = .ok m' ∧ Thinned m removals m' ∧
      m'.attachAll removals.reverse = .ok m := by
  induction removals using List.reverseRecOn with
  | nil => exact ⟨m, rfl, Thinned.refl m, rfl⟩
  | append_singleton removals r ih =>
    obtain ⟨b, x⟩ := r
    obtain ⟨hx, hfresh, hnodup⟩ : x < m.size ∧ (b, x) ∉ removals ∧ removals.Nodup := by
      refine ⟨hinside (b, x) (by simp), ?_⟩
      exact (List.nodup_cons.mp (List.perm_append_singleton (b, x) removals |>.nodup_iff.mp hnodup))
    obtain ⟨m', hdetachAll, hthinned, hback⟩ := ih (fun r hr => hinside r (by simp [hr])) hnodup
    obtain ⟨m'', hdetach, hthinned', hattach, -⟩ := hthinned.detach hm hx hfresh
    refine ⟨m'', ?_, hthinned', ?_⟩
    · rw [detachAll_append, hdetachAll]
      exact hdetach
    · rw [List.reverse_concat, attachAll_cons, hattach]
      exact hback

end Removals

/-! ## Every mesh -/

/-- **Nodes out of their lists leave the others in order, and can be put back.** Of any whole mesh,
let nodes be taken out along the two axes in any order, each of them once along an axis. From a node
that is still in its list along an axis, the walk along the links meets those of its old list that
are still in it, in the old order, and the walk against the links meets them in reverse. Taking out
one more node along one axis changes no link along the other. Putting all nodes back, the one taken
out last first, restores the mesh. -/
theorem detachAll_thins (m : Mesh) (hm : m.IsWhole) (removals : List (Axis × NodeId))
    (hinside : ∀ r ∈ removals, r.2 < m.size) (hnodup : removals.Nodup) :
    ∃ m', m.detachAll removals = .ok m' ∧ m'.attachAll removals.reverse = .ok m ∧
      (∀ a, ∀ i < m.size, (a, i) ∉ removals → ∃ l, m.ring (Node.next a) i = .ok l ∧
        m'.ring (Node.next a) i = .ok (remaining removals a l) ∧
        m'.ring (Node.prev a) i = .ok (remaining removals a l).reverse) ∧
      ∀ b, ∀ x < m.size, (b, x) ∉ removals → ∃ m'', m'.detach b x = .ok m'' ∧
        ∀ a, a ≠ b → ∀ i, m''.next a i = m'.next a i ∧ m''.prev a i = m'.prev a i := by
  obtain ⟨m', hdetachAll, hthinned, hback⟩ := Thinned.detachAll hm hinside hnodup
  refine ⟨m', hdetachAll, hback, fun a i hi hleft => ?_, fun b x hx hfresh => ?_⟩
  · obtain ⟨l, hl⟩ := hm.exists_ring (a := a) hi
    have hl' := hthinned a i l hleft hl
    exact ⟨l, hl.ring_next, hl'.ring_next, hl'.ring_prev⟩
  · obtain ⟨m'', hdetach, -, -, hframe⟩ := hthinned.detach hm hx hfresh
    exact ⟨m'', hdetach, hframe⟩

/-- Four nodes in one list along both axes, and one alone. Two neighbours are taken out along one
axis, one of them along the other axis as well, and the lone node too. -/
theorem detachAll_thins_neighbours :
    ∃ m m' : Mesh, m = ⟨#[⟨3, 1, 3, 1, 0, true⟩, ⟨0, 2, 0, 2, 0, false⟩, ⟨1, 3, 1, 3, 0, false⟩,
        ⟨2, 0, 2, 0, 0, false⟩, ⟨4, 4, 4, 4, 1, true⟩]⟩ ∧
      m.detachAll [(.across, 2), (.down, 2), (.across, 1), (.down, 4)] = .ok m' ∧
      m'.attachAll [(.down, 4), (.across, 1), (.down, 2), (.across, 2)] = .ok m ∧
      m'.ring (Node.next .across) 0 = .ok [3] ∧ m'.ring (Node.prev .down) 0 = .ok [3, 1] := by
  obtain ⟨m, hm⟩ : ∃ m : Mesh, m = ⟨#[⟨3, 1, 3, 1, 0, true⟩, ⟨0, 2, 0, 2, 0, false⟩,
    ⟨1, 3, 1, 3, 0, false⟩, ⟨2, 0, 2, 0, 0, false⟩, ⟨4, 4, 4, 4, 1, true⟩]⟩ := ⟨_, rfl⟩
  have hwhole : m.IsWhole := by
    intro a
    subst hm
    cases a <;> decide
  have hsize : m.size = 5 := by rw [hm]; rfl
  obtain ⟨m', hdetachAll, hback, hrings, -⟩ := detachAll_thins m hwhole
    [(.across, 2), (.down, 2), (.across, 1), (.down, 4)] (by rw [hsize]; decide) (by decide)
  obtain ⟨l, hl, hacross, -⟩ := hrings .across 0 (by omega) (by decide)
  obtain ⟨k, hk, -, hdown⟩ := hrings .down 0 (by omega) (by decide)
  obtain rfl : l = [1, 2, 3] := by
    subst hm
    cases hl
    rfl
  obtain rfl : k = [1, 2, 3] := by
    subst hm
    cases hk
    rfl
  exact ⟨m, m', hm, hdetachAll, hback, hacross, hdown⟩

end Mesh

end ExactCover
