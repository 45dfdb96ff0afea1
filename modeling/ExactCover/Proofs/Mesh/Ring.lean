import ExactCover.Proofs.Mesh.Links
import Mathlib.Data.List.Chain
import Mathlib.Data.List.Nodup

/-!
# Closed rings

A ring is a list of nodes through which the links of one axis go round in both directions. This is
what the walks of a mesh read, and what detaching and inserting change:

* **`IsRing.ring_next`, `IsRing.ring_prev`**: the walk round a ring meets its nodes in order, and
  against the links in reverse order. It always closes within the size of the mesh.
* **`IsRing.rotate`**: a ring may be entered at any of its nodes.
* **`IsRing.unlink`, `IsRing.unlink_of_notMem`**: taking a node out shortens the ring that it is in,
  and no other one.
* **`IsRing.splice`, `IsRing.splice_of_notMem`**: the same for putting a node in at the end.
-/

namespace ExactCover

namespace Mesh

/-- Two nodes are linked if each names the other as its neighbour. -/
structure Linked (m : Mesh) (a : Axis) (i j : NodeId) : Prop where
  next : m.next a i = j
  prev : m.prev a j = i

theorem Linked.node_next {m : Mesh} {a : Axis} {i j : NodeId} (h : Linked m a i j)
    (hi : i < m.size) : ∃ n, m.node i = .ok n ∧ n.next a = j := by
  obtain ⟨n, hn, hnext, -⟩ := exists_node hi
  exact ⟨n, hn, (hnext a).trans h.next⟩

theorem Linked.node_prev {m : Mesh} {a : Axis} {i j : NodeId} (h : Linked m a i j)
    (hj : j < m.size) : ∃ n, m.node j = .ok n ∧ n.prev a = i := by
  obtain ⟨n, hn, -, hprev, -⟩ := exists_node hj
  exact ⟨n, hn, (hprev a).trans h.prev⟩

/-- A node and its neighbours name each other. -/
def Mutual (m : Mesh) (a : Axis) (i : NodeId) : Prop :=
  ∃ n following preceding, m.node i = .ok n ∧ m.node (n.next a) = .ok following ∧
    m.node (n.prev a) = .ok preceding ∧ following.prev a = i ∧ preceding.next a = i

/-- The nodes `l` are what lies between `s` and `s` again. -/
structure IsRing (m : Mesh) (a : Axis) (s : NodeId) (l : List NodeId) : Prop where
  chain : List.IsChain (Linked m a) (s :: l ++ [s])
  nodup : (s :: l).Nodup
  inside : ∀ i ∈ s :: l, i < m.size

/-! ## Walking -/

/-- A walk along a list of steps meets the nodes of that list, and stops where the start comes
round. Induction on the list. -/
theorem walk_of_chain {m : Mesh} {step : Node → NodeId} {s : NodeId} :
    ∀ {l : List NodeId} {i : NodeId} {fuel : Nat},
      List.IsChain (fun i j => ∃ n, m.node i = .ok n ∧ step n = j) (i :: l ++ [s]) → s ∉ l →
      l.length < fuel → m.walk step s fuel i = .ok l
  | [], i, fuel + 1, hchain, _, _ => by
    obtain ⟨n, hn, hstep⟩ := List.rel_of_isChain_cons_cons hchain
    simp [walk, hn, hstep]
  | j :: l, i, fuel + 1, hchain, hs, hfuel => by
    obtain ⟨n, hn, hstep⟩ := List.rel_of_isChain_cons_cons hchain
    obtain ⟨hsj, hsl⟩ : s ≠ j ∧ s ∉ l := by simpa using hs
    -- the start is not on the way, so the walk does not stop here
    have hrest := walk_of_chain (List.isChain_of_isChain_cons hchain) hsl
      (Nat.lt_of_succ_lt_succ hfuel)
    simp [walk, hn, hstep, Ne.symm hsj, hrest]

namespace IsRing

variable {m : Mesh} {a : Axis} {s : NodeId} {l : List NodeId}

theorem start_notMem (h : IsRing m a s l) : s ∉ l := (List.nodup_cons.mp h.nodup).1

theorem length_lt (h : IsRing m a s l) : l.length < m.size := by
  have hsub : (s :: l) ⊆ List.range m.size := fun i hi => List.mem_range.mpr (h.inside i hi)
  have hlength := h.nodup.length_le_of_subset hsub
  rw [List.length_cons, List.length_range] at hlength
  exact hlength

/-- **The walk along the links meets the nodes of the ring in order.** -/
theorem ring_next (h : IsRing m a s l) : m.ring (Node.next a) s = .ok l := by
  refine walk_of_chain ?_ h.start_notMem h.length_lt
  refine h.chain.imp_of_mem_imp fun i j hi _ hlink => ?_
  obtain ⟨n, hn, hnext, -⟩ := exists_node (h.inside i (by simpa [or_comm] using hi))
  exact ⟨n, hn, (hnext a).trans hlink.next⟩

/-- **The walk against the links meets them in reverse order.** -/
theorem ring_prev (h : IsRing m a s l) : m.ring (Node.prev a) s = .ok l.reverse := by
  refine walk_of_chain ?_ (by simpa using h.start_notMem) (by simpa using h.length_lt)
  have hrev : s :: l.reverse ++ [s] = (s :: l ++ [s]).reverse := by simp
  rw [hrev, List.isChain_reverse]
  refine h.chain.imp_of_mem_imp fun i j _ hj hlink => ?_
  obtain ⟨n, hn, -, hprev, -⟩ := exists_node (h.inside j (by simpa [or_comm] using hj))
  exact ⟨n, hn, (hprev a).trans hlink.prev⟩

/-- A ring may be entered at any of its nodes. -/
theorem rotate {u v : List NodeId} {x : NodeId} (h : IsRing m a s (u ++ x :: v)) :
    IsRing m a x (v ++ s :: u) := by
  have hperm : (x :: (v ++ s :: u)).Perm (s :: (u ++ x :: v)) := by
    have h1 : (x :: v ++ s :: u).Perm (s :: u ++ x :: v) := List.perm_append_comm
    simpa using h1
  refine ⟨?_, hperm.nodup_iff.mpr h.nodup, fun i hi => h.inside i (hperm.mem_iff.mp hi)⟩
  -- the chain is cut at `x`, and its two parts are joined at `s`
  have hchain : List.IsChain (Linked m a) ((s :: u) ++ x :: (v ++ [s])) := by
    simpa using h.chain
  obtain ⟨hfirst, hsecond⟩ := List.isChain_split.mp hchain
  have hjoin : List.IsChain (Linked m a) ((x :: v) ++ s :: (u ++ [x])) :=
    List.isChain_split.mpr ⟨by simpa using hsecond, by simpa using hfirst⟩
  simpa using hjoin

/-- The start of a ring and its neighbours point at each other. -/
theorem start_linked (h : IsRing m a s l) :
    m.prev a (m.next a s) = s ∧ m.next a (m.prev a s) = s ∧ m.next a s ∈ s :: l ∧
      m.prev a s ∈ s :: l := by
  have hnext : Linked m a s (m.next a s) ∧ m.next a s ∈ s :: l := by
    cases l with
    | nil =>
      have hlink := List.rel_of_isChain_cons_cons h.chain
      rw [hlink.next]
      exact ⟨hlink, by simp⟩
    | cons y v =>
      have hlink := List.rel_of_isChain_cons_cons h.chain
      rw [hlink.next]
      exact ⟨hlink, by simp⟩
  have hprev : Linked m a (m.prev a s) s ∧ m.prev a s ∈ s :: l := by
    have hlast := (List.isChain_append.mp h.chain).2.2 _
      (List.getLast_mem_getLast? (List.cons_ne_nil s l)) s rfl
    rw [hlast.prev]
    exact ⟨hlast, List.getLast_mem _⟩
  exact ⟨hnext.1.prev, hprev.1.next, hnext.2, hprev.2⟩

theorem linked {x : NodeId} (h : IsRing m a s l) (hx : x ∈ s :: l) :
    m.prev a (m.next a x) = x ∧ m.next a (m.prev a x) = x ∧ m.next a x ∈ s :: l ∧
      m.prev a x ∈ s :: l := by
  rcases List.mem_cons.mp hx with rfl | hmem
  · exact h.start_linked
  · obtain ⟨u, v, rfl⟩ := List.append_of_mem hmem
    obtain ⟨h1, h2, h3, h4⟩ := h.rotate.start_linked
    refine ⟨h1, h2, ?_, ?_⟩
    · simp at h3 ⊢; tauto
    · simp at h4 ⊢; tauto

/-- Neighbours in a ring that is written out from its start to its start are linked. -/
theorem linked_of_split {u v : List NodeId} {x y : NodeId} (h : IsRing m a s l)
    (hl : s :: l ++ [s] = u ++ x :: y :: v) : Linked m a x y := by
  have hchain := h.chain
  rw [hl] at hchain
  exact (List.isChain_append_cons_cons.mp hchain).2.1

/-- A change of links that leaves the nodes of a ring alone leaves the ring. -/
theorem of_eq {m' : Mesh} (h : IsRing m a s l) (hsize : m.size ≤ m'.size)
    (hnext : ∀ i ∈ s :: l, m'.next a i = m.next a i)
    (hprev : ∀ i ∈ s :: l, m'.prev a i = m.prev a i) : IsRing m' a s l := by
  refine ⟨?_, h.nodup, fun i hi => Nat.lt_of_lt_of_le (h.inside i hi) hsize⟩
  refine h.chain.imp_of_mem_imp fun i j hi hj hlink => ⟨?_, ?_⟩
  · rw [hnext i (by simpa [or_comm] using hi)]; exact hlink.next
  · rw [hprev j (by simpa [or_comm] using hj)]; exact hlink.prev

end IsRing

theorem IsRing.mutual {m : Mesh} {a : Axis} {s x : NodeId} {l : List NodeId} (h : IsRing m a s l)
    (hx : x ∈ s :: l) : m.Mutual a x := by
  obtain ⟨hback, hforth, hnext, hprev⟩ := h.linked hx
  obtain ⟨n, hn, hnnext, hnprev, -⟩ := exists_node (h.inside x hx)
  obtain ⟨following, hfollowing, -, hfprev, -⟩ := exists_node (h.inside _ hnext)
  obtain ⟨preceding, hpreceding, hpnext, -, -⟩ := exists_node (h.inside _ hprev)
  refine ⟨n, following, preceding, hn, ?_, ?_, ?_, ?_⟩
  · rw [hnnext]; exact hfollowing
  · rw [hnprev]; exact hpreceding
  · rw [hfprev]; exact hback
  · rw [hpnext]; exact hforth

/-! ## Taking a node out -/

theorem filter_ne_of_split {x : NodeId} {u v : List NodeId} (h : (u ++ x :: v).Nodup) :
    (u ++ x :: v).filter (· ≠ x) = u ++ v := by
  have hx : x ∉ u ++ v := (List.nodup_cons.mp (List.nodup_middle.mp h)).1
  have hrest : (u ++ v).filter (· ≠ x) = u ++ v := List.filter_eq_self.mpr fun y hy => by
    simpa using fun heq : y = x => hx (heq ▸ hy)
  rw [List.filter_append, List.filter_cons]
  simpa using hrest

/-- A chain that does not meet a linked node does not notice when that node goes. -/
theorem isChain_unlink {m : Mesh} {a : Axis} {x : NodeId} {l : List NodeId}
    (hnext : m.next a x < m.size) (hprev : m.prev a x < m.size)
    (hafter : m.prev a (m.next a x) = x) (hbefore : m.next a (m.prev a x) = x)
    (hx : x ∉ l) (h : List.IsChain (Linked m a) l) : List.IsChain (Linked (m.unlink a x) a) l := by
  refine h.imp_of_mem_imp fun i j hi hj hlink => ⟨?_, ?_⟩
  · rw [next_unlink hprev, if_neg, hlink.next]
    -- otherwise the node after `i` would be `x`
    rintro ⟨-, rfl⟩
    exact hx (hbefore ▸ hlink.next ▸ hj)
  · rw [prev_unlink hnext, if_neg, hlink.prev]
    rintro ⟨-, rfl⟩
    exact hx (hafter ▸ hlink.prev ▸ hi)

namespace IsRing

variable {m : Mesh} {a b : Axis} {s t : NodeId} {l k : List NodeId} {x : NodeId}

/-- A ring does not notice when a node of another ring goes. -/
theorem unlink_of_notMem (h : IsRing m a s l) (hk : IsRing m a t k) (hx : x ∈ t :: k)
    (hxl : x ∉ s :: l) : IsRing (m.unlink a x) a s l := by
  obtain ⟨hafter, hbefore, hnext, hprev⟩ := hk.linked hx
  refine ⟨?_, h.nodup, by simpa using h.inside⟩
  exact isChain_unlink (hk.inside _ hnext) (hk.inside _ hprev) hafter hbefore
    (by simpa [or_comm] using hxl) h.chain

/-- **A node taken out of a ring is missing in it, and the other nodes stay in order.** -/
theorem unlink (h : IsRing m a s l) (hx : x ∈ l) :
    IsRing (m.unlink a x) a s (l.filter (· ≠ x)) := by
  obtain ⟨hafter, hbefore, hnext, hprev⟩ := h.linked (List.mem_cons_of_mem s hx)
  obtain ⟨u, v, rfl⟩ := List.append_of_mem hx
  have hnodup : (s :: u ++ x :: v).Nodup := h.nodup
  have hx' : x ∉ s :: u ++ v := (List.nodup_cons.mp (List.nodup_middle.mp hnodup)).1
  obtain ⟨hxsu, hxv⟩ : x ∉ s :: u ∧ x ∉ v := by rwa [List.mem_append, not_or] at hx'
  have hxvs : x ∉ v ++ [s] := by
    rw [List.mem_append, List.mem_singleton, not_or]
    exact ⟨hxv, List.ne_of_not_mem_cons hxsu⟩
  rw [filter_ne_of_split (List.nodup_cons.mp hnodup).2]
  have hsub : (s :: (u ++ v)).Sublist (s :: (u ++ x :: v)) :=
    ((List.Sublist.refl u).append (List.sublist_cons_self x v)).cons_cons s
  refine ⟨?_, h.nodup.sublist hsub, fun i hi => by simpa using h.inside i (hsub.subset hi)⟩
  -- cut the old ring open at `x`; what is left on either side is joined by the new link
  have hchain : List.IsChain (Linked m a) ((s :: u) ++ (x :: (v ++ [s]))) := by simpa using h.chain
  obtain ⟨hleft, hright, hjoin⟩ := List.isChain_append.mp hchain
  obtain ⟨hhead, hrest⟩ := List.isChain_cons.mp hright
  have hnew : List.IsChain (Linked (m.unlink a x) a) ((s :: u) ++ (v ++ [s])) := by
    refine List.isChain_append.mpr ⟨?_, ?_, fun i hi j hj => ⟨?_, ?_⟩⟩
    · exact isChain_unlink (h.inside _ hnext) (h.inside _ hprev) hafter hbefore hxsu hleft
    · exact isChain_unlink (h.inside _ hnext) (h.inside _ hprev) hafter hbefore hxvs hrest
    · have hi' : i = m.prev a x := ((hjoin i hi x (by simp)).prev).symm
      rw [next_unlink (h.inside _ hprev), if_pos ⟨rfl, hi'⟩]
      exact (hhead j hj).next
    · have hj' : j = m.next a x := ((hhead j hj).next).symm
      rw [prev_unlink (h.inside _ hnext), if_pos ⟨rfl, hj'⟩]
      exact (hjoin i hi x (by simp)).prev
  simpa using hnew

theorem unlink_of_ne (h : IsRing m a s l) (hab : a ≠ b) (hnext : m.next b x < m.size)
    (hprev : m.prev b x < m.size) : IsRing (m.unlink b x) a s l :=
  h.of_eq (by simp) (fun i _ => by rw [next_unlink hprev, if_neg (fun hn => hab hn.1)])
    (fun i _ => by rw [prev_unlink hnext, if_neg (fun hn => hab hn.1)])

/-- A node of a ring can be detached, and attaching it again restores the mesh. -/
theorem detach (h : IsRing m a s l) (hx : x ∈ s :: l) :
    m.detach a x = .ok (m.unlink a x) ∧ (m.unlink a x).attach a x = .ok m := by
  obtain ⟨hafter, hbefore, hnext, hprev⟩ := h.linked hx
  have hnext' := h.inside _ hnext
  have hprev' := h.inside _ hprev
  refine ⟨detach_eq (h.inside x hx) hnext' hprev', ?_⟩
  have hn : (m.unlink a x).next a x = m.next a x := by
    rw [next_unlink hprev']; split <;> rfl
  have hp : (m.unlink a x).prev a x = m.prev a x := by
    rw [prev_unlink hnext']; split <;> rfl
  rw [attach_eq (by simpa using h.inside x hx) (by simpa [hn] using hnext')
    (by simpa [hp] using hprev'), relink_unlink hnext' hprev' hafter hbefore]

/-! ## Putting a node in -/

theorem of_push {c : ColumnId} {isHeader : Bool} {i : NodeId} (hi : i = m.size) :
    IsRing (m.push c isHeader) a i [] := by
  subst hi
  have hget : m.nodes[m.size]? = none := Array.getElem?_eq_none (Nat.le_refl _)
  have hlink : Linked (m.push c isHeader) a m.size m.size :=
    ⟨by rw [next_push]; simp [Mesh.next, hget], by rw [prev_push]; simp [Mesh.prev, hget]⟩
  exact ⟨by simpa using hlink, by simp, by simp⟩

theorem push (h : IsRing m a s l) (c : ColumnId) (isHeader : Bool) :
    IsRing (m.push c isHeader) a s l :=
  h.of_eq (by simp) (by simp) (by simp)

/-- **A node put in before the start of a ring is the last one of it.** -/
theorem splice (h : IsRing m a s l) (hx : x ∉ s :: l) (hsize : x < m.size) :
    IsRing (m.splice a x s) a s (l ++ [x]) := by
  obtain ⟨-, hbefore, -, hprev⟩ := h.start_linked
  have hprev' := h.inside _ hprev
  have hs := h.inside s (by simp)
  obtain ⟨hxs, hxl⟩ : x ≠ s ∧ x ∉ l := by simpa using hx
  refine ⟨?_, ?_, ?_⟩
  · have hchain : List.IsChain (Linked m a) ((s :: l) ++ [s]) := by simpa using h.chain
    obtain ⟨hleft, -, hjoin⟩ := List.isChain_append.mp hchain
    have hnew : List.IsChain (Linked (m.splice a x s) a) ((s :: l) ++ [x, s]) := by
      refine List.isChain_append.mpr ⟨?_, ?_, fun i hi j hj => ?_⟩
      · refine hleft.imp_of_mem_tail_imp fun i j hi hj hlink => ⟨?_, ?_⟩
        · -- `i` is not the last node, since `j` comes after it
          have hne : i ≠ m.prev a s := fun he => h.start_notMem (by
            have hs : s = j := by rw [← hlink.next, he, hbefore]
            exact hs ▸ hj)
          have hix : i ≠ x := fun he => hx (he ▸ hi)
          rw [next_splice hsize hprev', if_neg (by simp [hne]), if_neg (by simp [hix]), hlink.next]
        · have hjs : j ≠ s := fun he => h.start_notMem (he ▸ hj)
          have hjx : j ≠ x := fun he => hxl (he ▸ hj)
          rw [prev_splice hsize hs, if_neg (by simp [hjs]), if_neg (by simp [hjx]), hlink.prev]
      · refine List.isChain_pair.mpr ⟨?_, ?_⟩
        · rw [next_splice hsize hprev',
            if_neg (fun he : a = a ∧ x = m.prev a s => hx (he.2 ▸ hprev)), if_pos ⟨rfl, rfl⟩]
        · rw [prev_splice hsize hs, if_pos ⟨rfl, rfl⟩]
      · have hi' : i = m.prev a s := ((hjoin i hi s (by simp)).prev).symm
        obtain rfl : j = x := by simpa using hj.symm
        refine ⟨?_, ?_⟩
        · rw [next_splice hsize hprev', if_pos ⟨rfl, hi'⟩]
        · rw [prev_splice hsize hs, if_neg (by simp [hxs]), if_pos ⟨rfl, rfl⟩, hi']
    simpa using hnew
  · rw [← List.cons_append]
    exact (List.perm_append_singleton x (s :: l)).nodup_iff.mpr (List.nodup_cons.mpr ⟨hx, h.nodup⟩)
  · intro i hi
    rcases List.mem_append.mp (by simpa using hi : i ∈ (s :: l) ++ [x]) with hmem | hmem
    · simpa using h.inside i hmem
    · simpa [List.mem_singleton.mp hmem] using hsize

/-- A ring does not notice when a node is put into another one. -/
theorem splice_of_notMem (h : IsRing m a t k) (hs : IsRing m a s l) (hsize : x < m.size)
    (hst : s ∉ t :: k) (hxk : x ∉ t :: k) : IsRing (m.splice a x s) a t k := by
  obtain ⟨-, hbefore, -, hprev⟩ := hs.start_linked
  refine ⟨?_, h.nodup, by simpa using h.inside⟩
  refine h.chain.imp_of_mem_imp fun i j hi hj hlink => ⟨?_, ?_⟩
  · have hi' : i ∈ t :: k := by simpa [or_comm] using hi
    have hj' : j ∈ t :: k := by simpa [or_comm] using hj
    have hne : i ≠ m.prev a s := fun he => hst (by
      have hj : s = j := by rw [← hlink.next, he, hbefore]
      exact hj ▸ hj')
    rw [next_splice hsize (hs.inside _ hprev), if_neg (by simp [hne]),
      if_neg (fun he : a = a ∧ i = x => hxk (he.2 ▸ hi')), hlink.next]
  · have hj' : j ∈ t :: k := by simpa [or_comm] using hj
    rw [prev_splice hsize (hs.inside s (by simp)), 
      if_neg (fun he : a = a ∧ j = s => hst (he.2 ▸ hj')),
      if_neg (fun he : a = a ∧ j = x => hxk (he.2 ▸ hj')), hlink.prev]

theorem splice_of_ne (h : IsRing m a t k) (hab : a ≠ b) (hsize : x < m.size) (hs : s < m.size)
    (hprev : m.prev b s < m.size) : IsRing (m.splice b x s) a t k :=
  h.of_eq (by simp) (fun i _ => by rw [next_splice hsize hprev]; simp [hab])
    (fun i _ => by rw [prev_splice hsize hs]; simp [hab])

end IsRing

end Mesh

end ExactCover
