import ExactCover.Proofs.Matrix.Build
import ExactCover.Proofs.Matrix.Covering
import ExactCover.Proofs.Search.AlgorithmX

/-!
# The search on links is Algorithm X

The search on a matrix does, step by step, what Algorithm X does on the table that the matrix
represents, and it leaves the matrix as it found it. Each step rests on the one below having
restored the matrix exactly: the loop over the rows of a column reads its next row from links that
the search below has taken apart and put together again.

All this is proved for whichever operations cover and uncover the columns, from what they have to
do to a matrix.

* **`Branching.choose_eq`**: both branch on the same column.
* **`CoverOps.Sound`**: what the operations have to do.
* **`CoverOps.Sound.tryRows_eq`**: the loop over the rows of a column, where the search below is
  right.
* **`CoverOps.Sound.descend_eq`**: the search below some moves, by induction on its depth.
* **`CoverOps.Sound.precover_eq`**: what the initial moves cover, and that uncovering restores it.
* **`CoverOps.Sound.solveWith_eq`**: a whole search on a matrix that represents a table.
* **`solveWith_build`**: the search itself, on every matrix that can be built.
-/

namespace ExactCover

open Mesh

variable {σ μ : Type} {L : Layout} {covered : List ColumnId} {m : Matrix}

/-! ## The column to branch on -/

namespace Branching

/-- The scan ends at the first of the best columns, where a column must be smaller to be better. -/
theorem scan_eq {size : ColumnId → Nat} {live : List ColumnId} {best : ColumnId}
    (hsize : ∀ c ∈ live, ∃ col, m.column c = .ok col ∧ col.size = size c) :
    Branching.scan m best (size best) live =
      .ok (match live.argmin size with
        | some c => if size c < size best then c else best
        | none => best) := by
  induction live generalizing best with
  | nil => rfl
  | cons c live ih =>
    obtain ⟨col, hcol, hcsize⟩ := hsize c (by simp)
    have hrest : ∀ d ∈ live, ∃ col, m.column d = .ok col ∧ col.size = size d :=
      fun d hd => hsize d (by simp [hd])
    simp only [scan, hcol, ok_bind, hcsize, List.argmin_cons, pure_eq_ok, ih hrest]
    cases live.argmin size with
    | none => grind
    | some d => grind

theorem choose_eq (h : Represents L covered m) (b : Branching) :
    b.choose m = .ok (AlgorithmX.choose b L.table covered) := by
  have hsize : ∀ c ∈ L.table.live covered, ∃ col, m.column c = .ok col ∧
      col.size = (L.table.through covered c).length := fun c hc => ⟨_, h.column_ok hc, rfl⟩
  simp only [choose, Layout.Shows.live h, ok_bind]
  cases hlive : L.table.live covered with
  | nil => cases b <;> simp [AlgorithmX.choose, hlive]
  | cons c live =>
    rw [hlive] at hsize
    cases b with
    | firstColumn => simp [AlgorithmX.choose, hlive]
    | fewestRows =>
      obtain ⟨col, hcol, hcsize⟩ := hsize c (by simp)
      let size : ColumnId → Nat := fun c => (L.table.through covered c).length
      have hrest : Branching.scan m c (size c) live = _ :=
        scan_eq fun d hd => hsize d (List.mem_cons_of_mem c hd)
      simp only [hcol, ok_bind, hcsize, hrest, AlgorithmX.choose, hlive, List.argmin_cons, size,
        pure_eq_ok]
      cases live.argmin fun c => (L.table.through covered c).length with
      | none => simp
      | some d =>
        by_cases hless : (L.table.through covered d).length < (L.table.through covered c).length
        · have hne : ¬ (L.table.through covered c).length = 0 := by omega
          simp only [if_neg hne, if_pos hless]
        · simp only [if_neg hless, ite_self]

end Branching

/-! ## The rows of a column -/

/-- What the search on a matrix answers where Algorithm X reports `r`: the matrix as it was, and the
rest of the report. -/
def AlgorithmX.Report.answer (r : AlgorithmX.Report μ) (m : Matrix) : Search.Answer μ :=
  (⟨m, r.explored, r.aborted⟩, r.found)

/-- Where `covered` are covered, a search on links answers what a search on tables reports. -/
def Agrees (L : Layout) (covered : List ColumnId)
    (search : List μ → Search.Progress → Except Fault (Search.Answer μ))
    (reference : List μ → Nat → AlgorithmX.Report μ) : Prop :=
  ∀ {m}, Represents L covered m → ∀ chosen explored,
    search chosen ⟨m, explored, false⟩ = .ok ((reference chosen explored).answer m)

namespace Layout

/-- The node of the first of some rows below a head; after the last row, the head itself. -/
def top (L : Layout) (c : ColumnId) (rows : List (List Cell)) : NodeId :=
  (rows.flatMap (nodesIn c)).head?.getD (L.header c)

theorem top_split {u v : List Cell} {x : Cell} {rows : List (List Cell)}
    (hr : u ++ x :: v ∈ L.rows) :
    L.top x.column ((u ++ x :: v) :: rows) = x.id := by
  simp [top, nodesIn_split hr]

end Layout

namespace Represents

open Layout

/-- Below the head of a column that was covered last are the rows that were left in it. -/
theorem down_covered {c : ColumnId} (h : Represents L (c :: covered) m)
    (hc : c ∈ L.table.live covered) :
    IsRing m.mesh .down (L.header c) ((L.through covered c).flatMap (nodesIn c)) := by
  obtain ⟨hcolumn, hlive⟩ := Table.mem_live.mp hc
  have hring := h.down c hcolumn
  rwa [filter_hidden_cons, filter_hidden hlive] at hring

/-- These are fewer than there are nodes. -/
theorem length_through_lt {c : ColumnId} (h : Represents L (c :: covered) m)
    (hc : c ∈ L.table.live covered) : (L.through covered c).length < m.mesh.size := by
  obtain ⟨hcolumn, hlive⟩ := Table.mem_live.mp hc
  have hlt := (h.down c hcolumn).length_lt
  rwa [filter_hidden_cons, length_filter_hidden hlive] at hlt

/-- Below the node before some rows is the first of these. -/
theorem linked_top {c : ColumnId} (h : Represents L (c :: covered) m)
    (hc : c ∈ L.table.live covered) {pre rows : List (List Cell)} {front : List NodeId} {i : NodeId}
    (hsplit : L.through covered c = pre ++ rows)
    (hfront : L.header c :: pre.flatMap (nodesIn c) = front ++ [i]) :
    Linked m.mesh .down i (L.top c rows) := by
  refine (h.down_covered hc).linked_of_split (u := front)
    (v := (rows.flatMap (nodesIn c) ++ [L.header c]).tail) ?_
  rw [hsplit, List.flatMap_append, ← List.cons_append, hfront]
  cases hnodes : rows.flatMap (nodesIn c) <;> simp [top, hnodes]

/-- Below the head of a column that was covered last is the first of its rows. -/
theorem node_top {c : ColumnId} (h : Represents L (c :: covered) m)
    (hc : c ∈ L.table.live covered) :
    ∃ n, m.mesh.node (L.header c) = .ok n ∧ n.down = L.top c (L.through covered c) := by
  have hlink := h.linked_top hc (List.nil_append _).symm (List.nil_append _).symm
  exact hlink.node_next ((h.down_covered hc).inside _ (List.mem_cons_self ..))

/-- What there is to know about a row of such a column: its node is not the head, below it is the
next row, and its other columns are left. -/
theorem row_covered {u v : List Cell} {x : Cell} {pre rows : List (List Cell)}
    (h : Represents L (x.column :: covered) m) (hc : x.column ∈ L.table.live covered)
    (hsplit : L.through covered x.column = pre ++ (u ++ x :: v) :: rows) :
    x.id ≠ L.header x.column ∧ (∃ n, m.mesh.node x.id = .ok n ∧ n.down = L.top x.column rows) ∧
      ∀ z ∈ v ++ u, z.column ∉ x.column :: covered := by
  have hthrough : u ++ x :: v ∈ L.through covered x.column := by simp [hsplit]
  obtain ⟨hr, -, halive⟩ := mem_through.mp hthrough
  have hring := h.down_covered hc
  have hx : x.id ∈ (L.through covered x.column).flatMap (nodesIn x.column) := by
    rw [List.mem_flatMap]
    exact ⟨_, hthrough, by simp [nodesIn_split hr]⟩
  have hsplit' : L.through covered x.column = (pre ++ [u ++ x :: v]) ++ rows := by simp [hsplit]
  have hfront : L.header x.column :: (pre ++ [u ++ x :: v]).flatMap (nodesIn x.column) =
      (L.header x.column :: pre.flatMap (nodesIn x.column)) ++ [x.id] := by
    simp [nodesIn_split hr]
  refine ⟨fun heq => hring.start_notMem (heq ▸ hx), ?_, fun z hz => ?_⟩
  · exact (h.linked_top hc hsplit' hfront).node_next (hring.inside x.id (List.mem_cons_of_mem _ hx))
  · rw [List.mem_cons, not_or]
    exact ⟨column_ne_of_split hr hz, halive _ (List.mem_map_of_mem (mem_of_rest hz))⟩

end Represents

section

variable [Puzzle σ μ] {p : σ}

open Layout

theorem ofRow?_eq (h : Represents L covered m) {u v : List Cell} {x : Cell}
    (hr : u ++ x :: v ∈ L.rows) :
    Puzzle.ofRow? p m x.id =
      .ok (Puzzle.ofKeys? p ((x.column :: (v ++ u).map Cell.column).map L.table.key)) := by
  simp [Puzzle.ofRow?, Layout.Shows.rowKeys h hr, Function.comp_def]

/-- Read from top to bottom, the nodes below a head that is left are the rows that are left. -/
theorem mapM_ofRow? (h : Represents L covered m) {c : ColumnId} (hc : c ∈ L.table.live covered) :
    ∃ nodes, m.columnNodes c = .ok nodes ∧ nodes.mapM (Puzzle.ofRow? p m) =
      .ok ((L.table.through covered c).map fun r =>
        Puzzle.ofKeys? p ((c :: roundFrom (· == c) r).map L.table.key)) := by
  -- one row after the other, from whichever row on
  have hrows : ∀ rows : List (List Cell), (∀ r ∈ rows, r ∈ L.through covered c) →
      (rows.flatMap (nodesIn c)).mapM (Puzzle.ofRow? p m) =
        .ok (rows.map fun r => Puzzle.ofKeys? p
          ((c :: roundFrom (· == c) (r.map Cell.column)).map L.table.key)) := by
    intro rows
    induction rows with
    | nil => exact fun _ => rfl
    | cons r rows ih =>
      intro hall
      obtain ⟨hr, hrest⟩ := List.forall_mem_cons.mp hall
      obtain ⟨u, x, v, rfl, rfl⟩ := split_of_mem_through hr
      have hmem := (mem_through.mp hr).1
      rw [List.flatMap_cons, nodesIn_split hmem, List.singleton_append, List.mapM_cons,
        ofRow?_eq h hmem, ih hrest]
      simp only [ok_bind, pure_eq_ok, List.map_cons, roundFrom_split hmem]
  refine ⟨_, h.columnNodes hc, ?_⟩
  rw [hrows _ fun _ hr => hr, table_through, List.map_map]
  rfl

end

/-! ## Operations that do what covering is to do -/

/-- Operations are sound for a layout if they do to the matrices that represent it what covering
does to its table, if each undoes the other there, and if the bounds are not too small. -/
structure CoverOps.Sound (k : CoverOps) (L : Layout) : Prop where
  cover : L.Covers k.cover k.uncover
  coverRow : ∀ {covered m u v} {x : Cell}, Represents L covered m → u ++ x :: v ∈ L.rows →
    (∀ z ∈ v ++ u, z.column ∉ covered) →
    ∃ m', k.coverRow x.id m = .ok (m', L.table.costAll covered ((v ++ u).map Cell.column)) ∧
      Represents L (((v ++ u).map Cell.column).reverse ++ covered) m' ∧
      k.uncoverRow x.id m' = .ok m
  steps : ∀ {covered m c}, Represents L (c :: covered) m → c ∈ L.table.live covered →
    (L.through covered c).length < k.steps m
  depth : ∀ o m live, live ≤ k.depth o m live

/-- The operations of matrices are sound. A column has fewer rows than there are nodes, so the bound
on the loop over them is never reached. -/
theorem CoverOps.listed_sound (L : Layout) : CoverOps.listed.Sound L where
  cover _ _ _ h hc := h.cover hc
  coverRow h hr hlive := h.coverRow hr hlive
  steps h hc := Nat.lt_of_lt_of_le (h.length_through_lt hc) (Nat.le_mul_self _)
  depth o m live := by
    show live ≤ Search.depthBound o m live
    unfold Search.depthBound
    omega

namespace CoverOps

variable {k : CoverOps} [Puzzle σ μ] {p : σ}

/-- Where the budget has run out both searches stop, at whatever depth. -/
theorem descend_of_over {o : Search.Options} {explored : Nat}
    (hover : AlgorithmX.isOver o.budget explored = true) (depth : Nat) (chosen : List μ) :
    k.descend p o depth chosen ⟨m, explored, false⟩ =
      .ok ((AlgorithmX.descend L.table p o covered chosen explored).answer m) := by
  rw [AlgorithmX.descend_of_over hover]
  cases depth <;>
    simp [CoverOps.descend, AlgorithmX.isOverBudget_eq, hover, AlgorithmX.Report.answer]

/-- Where no column is left both ask the puzzle, at whatever depth. -/
theorem descend_of_none {o : Search.Options} {explored : Nat} (h : Represents L covered m)
    (hover : AlgorithmX.isOver o.budget explored = false)
    (hchoose : AlgorithmX.choose o.branching L.table covered = none) (depth : Nat)
    (chosen : List μ) :
    k.descend p o depth chosen ⟨m, explored, false⟩ =
      .ok ((AlgorithmX.descend L.table p o covered chosen explored).answer m) := by
  rw [AlgorithmX.descend_of_none hover hchoose]
  cases depth <;>
    simp [CoverOps.descend, AlgorithmX.isOverBudget_eq, hover, Branching.choose_eq h, hchoose,
      AlgorithmX.accept_eq, AlgorithmX.Report.answer]

end CoverOps

namespace CoverOps.Sound

open Layout

variable {k : CoverOps} [Puzzle σ μ] {p : σ}

/-- **The loop over the rows of a column.** Induction on the rows that are still to be tried; the
search below a row gives back the matrix that it was given, so the next row is read from the same
links. -/
theorem tryRows_eq (hk : k.Sound L) {c : ColumnId} (h : Represents L (c :: covered) m)
    (hc : c ∈ L.table.live covered)
    {below : List μ → Search.Progress → Except Fault (Search.Answer μ)}
    {below' : List ColumnId → List μ → Nat → AlgorithmX.Report μ}
    (hbelow : ∀ others, Agrees L (others.reverse ++ c :: covered) below (below' others)) :
    ∀ {rows pre : List (List Cell)} {fuel : Nat} (chosen : List μ) (explored : Nat),
      L.through covered c = pre ++ rows → rows.length < fuel →
      k.tryRows p below (L.header c) chosen fuel (L.top c rows) ⟨m, explored, false⟩ =
        .ok ((AlgorithmX.tryRows L.table p below' c (c :: covered) chosen
          (rows.map (·.map Cell.column)) explored).answer m)
  | [], pre, fuel + 1, chosen, explored, hsplit, hfuel => by
    simp [CoverOps.tryRows, top, AlgorithmX.tryRows, AlgorithmX.Report.answer]
  | r :: rows, pre, fuel + 1, chosen, explored, hsplit, hfuel => by
    have hthrough : r ∈ L.through covered c := by simp [hsplit]
    obtain ⟨u, x, v, rfl, rfl⟩ := split_of_mem_through hthrough
    have hr := (mem_through.mp hthrough).1
    -- the next row, and what the loop does from there
    obtain ⟨hne, ⟨n, hn, hdown⟩, hothers⟩ := h.row_covered hc hsplit
    have hsplit' : L.through covered x.column = (pre ++ [u ++ x :: v]) ++ rows := by simp [hsplit]
    have hfuel' : rows.length < fuel := Nat.lt_of_succ_lt_succ hfuel
    simp only [CoverOps.tryRows, top_split hr, hne, false_or, Bool.false_eq_true, if_false,
      ofRow?_eq h hr, ok_bind, List.map_cons, AlgorithmX.tryRows, roundFrom_split hr, hn, hdown]
    cases Puzzle.ofKeys? p (L.table.key x.column :: ((v ++ u).map Cell.column).map L.table.key) with
    | none => exact hk.tryRows_eq h hc hbelow chosen explored hsplit' hfuel'
    | some move =>
      obtain ⟨m', hcover, hm', huncover⟩ := hk.coverRow h hr hothers
      simp only [hcover, ok_bind, hbelow _ hm', AlgorithmX.Report.answer, huncover]
      generalize below' ((v ++ u).map Cell.column) (chosen ++ [move])
        (explored + L.table.costAll (x.column :: covered) ((v ++ u).map Cell.column)) = report
      obtain ⟨explored', aborted, found⟩ := report
      cases found with
      | some moves => simp
      | none =>
        cases aborted with
        | false =>
          simpa [hn, hdown, AlgorithmX.Report.answer] using
            hk.tryRows_eq h hc hbelow chosen explored' hsplit' hfuel'
        | true =>
          -- the loop ends one call later
          obtain ⟨fuel, rfl⟩ := Nat.exists_eq_add_of_lt hfuel'
          simp [hn, CoverOps.tryRows]

/-- **The search below some moves.** Induction on the depth, which the number of live columns
bounds. -/
theorem descend_eq (hk : k.Sound L) {o : Search.Options} {depth : Nat}
    (hdepth : (L.table.live covered).length ≤ depth) :
    Agrees L covered (k.descend p o depth) (AlgorithmX.descend L.table p o covered) := by
  induction depth generalizing covered with
  | zero =>
    -- no live column is left to branch on
    intro m h chosen explored
    have hnone : AlgorithmX.choose o.branching L.table covered = none :=
      AlgorithmX.choose_eq_none.mpr (List.length_eq_zero_iff.mp (Nat.le_zero.mp hdepth))
    cases hover : AlgorithmX.isOver o.budget explored with
    | true => exact descend_of_over hover 0 chosen
    | false => exact descend_of_none h hover hnone 0 chosen
  | succ depth ih =>
    intro m h chosen explored
    cases hover : AlgorithmX.isOver o.budget explored with
    | true => exact descend_of_over hover (depth + 1) chosen
    | false =>
      cases hchoose : AlgorithmX.choose o.branching L.table covered with
      | none => exact descend_of_none h hover hchoose (depth + 1) chosen
      | some c =>
        have hc := AlgorithmX.choose_mem hchoose
        obtain ⟨m', hcover, hm', huncover⟩ := hk.cover h hc
        have hlive : ∀ others : List ColumnId,
            (L.table.live (others.reverse ++ c :: covered)).length ≤ depth := fun others =>
          Nat.le_of_lt_succ (Nat.lt_of_lt_of_le (Nat.lt_of_le_of_lt Table.length_live_append_le
            (Table.length_live_cons_lt hc)) hdepth)
        obtain ⟨n, hn, hdown⟩ := hm'.node_top hc
        have hbelow : ∀ others : List ColumnId, Agrees L (others.reverse ++ c :: covered)
            (k.descend p o depth)
            (AlgorithmX.descend L.table p o (others.reverse ++ c :: covered)) :=
          fun others => ih (hlive others)
        have hrows := hk.tryRows_eq (p := p) hm' hc hbelow chosen
          (explored + L.table.cost covered c) (List.nil_append _).symm (hk.steps hm' hc)
        simp [CoverOps.descend, AlgorithmX.isOverBudget_eq, hover, Branching.choose_eq h, hchoose,
          h.column_ok hc, hcover, hn, hdown, AlgorithmX.descend_of_some hover hchoose, hrows,
          AlgorithmX.Report.answer, huncover, Layout.table_through]

/-! ## A whole search -/

/-- Covering what the initial keys meet, from where some columns were covered already. What was
covered can be uncovered again. Induction on the keys. -/
theorem precover_from (hk : k.Sound L) {m₀ : Matrix} {new : List ColumnId}
    (h : Represents L (new ++ covered) m)
    (hundo : new.foldlM (fun m c => k.uncover c m) m = .ok m₀) (keys : List String)
    (skipped : Nat) :
    ∃ m' new' skipped', keys.foldlM k.precoverKey ⟨m, new, skipped⟩ = .ok ⟨m', new', skipped'⟩ ∧
      keys.foldl (AlgorithmX.precoverKey L.table) (new ++ covered, skipped) =
        (new' ++ covered, skipped') ∧
      Represents L (new' ++ covered) m' ∧
      new'.foldlM (fun m c => k.uncover c m) m' = .ok m₀ := by
  induction keys generalizing m new skipped with
  | nil => exact ⟨m, new, skipped, rfl, rfl, h, hundo⟩
  | cons key keys ih =>
    have hfind := Shows.find? h key
    rw [List.foldlM_cons, List.foldl_cons, AlgorithmX.precoverKey]
    cases hc : L.table.find? (new ++ covered) key with
    | none => simpa [CoverOps.precoverKey, hfind, hc] using ih h hundo (skipped + 1)
    | some c =>
      obtain ⟨m₁, hcover, hm₁, huncover⟩ := hk.cover h (List.mem_of_find?_eq_some hc)
      -- the column that is covered last is uncovered first
      have hundo₁ : (c :: new).foldlM (fun m c => k.uncover c m) m₁ = .ok m₀ := by
        rw [List.foldlM_cons, huncover]
        exact hundo
      simpa [CoverOps.precoverKey, hfind, hc, hcover] using ih hm₁ hundo₁ skipped

theorem precover_eq (hk : k.Sound L) (h : Represents L covered m) (keys : List String) :
    ∃ m' new skipped, k.precover keys m = .ok ⟨m', new, skipped⟩ ∧
      AlgorithmX.precover L.table covered keys = (new ++ covered, skipped) ∧
      Represents L (new ++ covered) m' ∧ new.foldlM (fun m c => k.uncover c m) m' = .ok m :=
  hk.precover_from (show Represents L ([] ++ covered) m from h) rfl keys 0

/-- **A whole search, on any matrix that represents a table.** -/
theorem solveWith_eq [Move μ] (hk : k.Sound L) (h : Represents L covered m) (p : σ)
    (o : Search.Options) :
    k.solveWith p o m = .ok
      { moves := (AlgorithmX.solve L.table covered p o).1
        tally := (AlgorithmX.solve L.table covered p o).2
        matrix := m } := by
  obtain ⟨m', new, skipped, hprecover, href, hm', hundo⟩ :=
    hk.precover_eq h ((Puzzle.initial p).flatMap Move.keys)
  have hdescend := hk.descend_eq (p := p) (o := o) (hk.depth o m' _) hm' [] 0
  simp only [CoverOps.solveWith, h.extent, ok_bind, hprecover, Shows.live hm', hdescend,
    AlgorithmX.Report.answer, hundo, AlgorithmX.solve, href, pure_eq_ok]

end CoverOps.Sound

/-! ## The search on a matrix -/

section

variable [Puzzle σ μ]

theorem precover_eq (h : Represents L covered m) (keys : List String) :
    ∃ m' new skipped, Search.precover keys m = .ok ⟨m', new, skipped⟩ ∧
      AlgorithmX.precover L.table covered keys = (new ++ covered, skipped) ∧
      Represents L (new ++ covered) m' ∧ new.foldlM (fun m c => m.uncover c) m' = .ok m :=
  (CoverOps.listed_sound L).precover_eq h keys

theorem solveWith_eq [Move μ] (h : Represents L covered m) (p : σ) (o : Search.Options) :
    Search.solveWith p o m = .ok
      { moves := (AlgorithmX.solve L.table covered p o).1
        tally := (AlgorithmX.solve L.table covered p o).2
        matrix := m } :=
  (CoverOps.listed_sound L).solveWith_eq h p o

def Puzzle.table (p : σ) : Table := Table.ofRows (Puzzle.constraints p) (Puzzle.rows p)

/-- **A whole search on the puzzle's own matrix.** -/
theorem solve_eq [Move μ] (p : σ) (o : Search.Options) :
    ∃ m, Search.solve p o = .ok
      { moves := (AlgorithmX.solve (Puzzle.table p) [] p o).1
        tally := (AlgorithmX.solve (Puzzle.table p) [] p o).2
        matrix := m } := by
  obtain ⟨L, m, hrows, hm, htable⟩ := Represents.ofRows (Puzzle.constraints p) (Puzzle.rows p)
  have hmatrix : Puzzle.matrix p = .ok m := hrows
  refine ⟨m, ?_⟩
  simp only [Search.solve, hmatrix, ok_bind, solveWith_eq hm, htable, Puzzle.table]

/-- The columns that the initial moves of a puzzle cover. -/
def Puzzle.precovered [Move μ] (p : σ) : List ColumnId :=
  (AlgorithmX.precover (Puzzle.table p) [] ((Puzzle.initial p).flatMap Move.keys)).1

/-- What Algorithm X reports on the table of a puzzle, where the initial moves are covered. -/
def Puzzle.report [Move μ] (p : σ) (o : Search.Options) : AlgorithmX.Report μ :=
  AlgorithmX.descend (Puzzle.table p) p o (Puzzle.precovered p) [] 0

/-- A search on a puzzle succeeds, and answers what Algorithm X reports. -/
theorem Puzzle.solve_report [Move μ] (p : σ) (o : Search.Options) :
    ∃ out, Search.solve p o = .ok out ∧ out.moves = (report p o).found.getD [] ∧
      out.tally.solved = (report p o).found.isSome ∧
      out.tally.aborted = (report p o).aborted := by
  obtain ⟨m, hsolve⟩ := solve_eq p o
  exact ⟨_, hsolve, rfl, rfl, rfl⟩

end

/-! ## Every matrix -/

/-- **The search on links refines Algorithm X.** On every matrix that can be built, for every
puzzle, either rule of branching and every budget, it ends with the moves and the tally of
Algorithm X on the table, and hands the matrix back as it came. -/
theorem solveWith_build [Move μ] [Puzzle σ μ] (additions : List Addition) (p : σ)
    (o : Search.Options) :
    ∃ m, Matrix.build additions = .ok m ∧
      Search.solveWith p o m = .ok
        { moves := (AlgorithmX.solve (Table.build additions) [] p o).1
          tally := (AlgorithmX.solve (Table.build additions) [] p o).2
          matrix := m } := by
  obtain ⟨L, m, hbuild, hm, htable⟩ := Represents.build additions
  exact ⟨m, hbuild, htable ▸ solveWith_eq hm p o⟩

end ExactCover
