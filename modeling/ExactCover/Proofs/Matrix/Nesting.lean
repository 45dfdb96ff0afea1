import ExactCover.Proofs.Matrix.Build
import ExactCover.Proofs.Matrix.Covering

/-!
# Calls nested like brackets

Covering and uncovering leave no trace if they are nested like brackets. A session is a matrix
together with the calls that were not undone yet. What it permits is to cover a column that is live,
to cover the other columns of a row, if the row goes through the column that was covered last or if
these columns are all live, and to undo the latest call.

* **`Session.Bracketed`**: sequences of calls, each permitted when it is made, that leave nothing to
  undo.
* **`Trail`**: the invariant. Every call that was not undone would, if it were undone now, lead
  back to the very matrix that it was made on.
* **`Trail.perform_step`, `Trail.undo_step`**: what one call preserves.
* **`run_of_bracketed`**: after all calls the matrix is the one before them.
-/

namespace ExactCover

/-! ## Sessions -/

/-- What can be done to a matrix and undone again. -/
inductive Action
  | cover (c : ColumnId)
  | coverRow (n : NodeId)
  deriving DecidableEq, Repr

/-- A call: an action, or the undoing of one. -/
inductive Call
  | perform (action : Action)
  | undo (action : Action)
  deriving DecidableEq, Repr

namespace Matrix

def perform (m : Matrix) : Action → Except Fault Matrix
  | .cover c => return (← m.cover c).1
  | .coverRow n => return (← m.coverRow n).1

def undo (m : Matrix) : Action → Except Fault Matrix
  | .cover c => m.uncover c
  | .coverRow n => m.uncoverRow n

/-- The columns that an action covers, the latest first. -/
def coveredBy (m : Matrix) : Action → Except Fault (List ColumnId)
  | .cover c => return [c]
  | .coverRow n => return (← (← m.rowNodes n).tail.mapM m.columnOf).reverse

/-- Whether a node is one of a row that meets live columns only, not counting the column of the node
itself. -/
def IsFree (m : Matrix) (n : NodeId) : Prop :=
  ∃ node others, m.mesh.node n = .ok node ∧ node.isHeader = false ∧
    m.coveredBy (.coverRow n) = .ok others ∧ ∀ d ∈ others, Lists m.live d

instance (m : Matrix) (n : NodeId) : Decidable (m.IsFree n) :=
  match hnode : m.mesh.node n, hothers : m.coveredBy (.coverRow n) with
  | .ok node, .ok others =>
    decidable_of_iff (node.isHeader = false ∧ ∀ d ∈ others, Lists m.live d)
      (by simp [IsFree, hnode, hothers])
  | .error _, _ => isFalse (by simp [IsFree, hnode])
  | _, .error _ => isFalse (by simp [IsFree, hothers])

end Matrix

/-- A matrix, and the actions that were not undone yet, the latest first, each with the columns
that it covered. -/
structure Session where
  matrix : Matrix
  pending : List (Action × List ColumnId)
  deriving DecidableEq, Repr

namespace Session

/-- All columns that are covered, the latest first. -/
def covered (s : Session) : List ColumnId := s.pending.flatMap Prod.snd

def step (s : Session) : Call → Except Fault Session
  | .perform action => do
    let columns ← s.matrix.coveredBy action
    return ⟨← s.matrix.perform action, (action, columns) :: s.pending⟩
  | .undo action => return ⟨← s.matrix.undo action, s.pending.tail⟩

def run (s : Session) (calls : List Call) : Except Fault Session := calls.foldlM step s

/-- The calls that may be made: covering a live column, covering the rest of a row from a node below
the head of the column covered last, or from any node if no column of the rest is covered yet, and
undoing the latest action. -/
def Permits (s : Session) : Call → Prop
  | .perform (.cover c) => Lists s.matrix.live c
  | .perform (.coverRow n) =>
    (∃ c, s.covered.head? = some c ∧ Lists (s.matrix.columnNodes c) n) ∨ s.matrix.IsFree n
  | .undo action => s.pending.head?.map Prod.fst = some action

/-- Every call is permitted when it is made, and in the end nothing is left to undo. -/
def Bracketed (s : Session) : List Call → Prop
  | [] => s.pending = []
  | call :: calls => s.Permits call ∧ ∀ s', s.step call = .ok s' → s'.Bracketed calls

instance (s : Session) : DecidablePred s.Permits
  | .perform (.cover c) => inferInstanceAs (Decidable (Lists s.matrix.live c))
  | .perform (.coverRow n) =>
    let below : Decidable (∃ c, s.covered.head? = some c ∧ Lists (s.matrix.columnNodes c) n) :=
      match hlast : s.covered.head? with
      | some c => decidable_of_iff (Lists (s.matrix.columnNodes c) n) (by simp)
      | none => isFalse (by simp)
    inferInstanceAs (Decidable (_ ∨ _))
  | .undo action => inferInstanceAs (Decidable (s.pending.head?.map Prod.fst = some action))

instance decidableBracketed : (s : Session) → (calls : List Call) → Decidable (s.Bracketed calls)
  | s, [] => inferInstanceAs (Decidable (s.pending = []))
  | s, call :: calls =>
    let rest : Decidable (∀ s', s.step call = .ok s' → s'.Bracketed calls) :=
      match hstep : s.step call with
      | .ok s' =>
        have := decidableBracketed s' calls
        decidable_of_iff (s'.Bracketed calls) (by simp)
      | .error _ => isTrue (by simp)
    inferInstanceAs (Decidable (_ ∧ _))

end Session

/-! ## The trail -/

/-- **How a session came about.** Nothing but the actions that were not undone matters: each of them
would lead back, if it were undone now, to the matrix that it was performed on. -/
inductive Trail (L : Layout) (m₀ : Matrix) : Session → Prop
  | start : Represents L [] m₀ → Trail L m₀ ⟨m₀, []⟩
  | perform {s : Session} {action : Action} {columns : List ColumnId} {m : Matrix} :
      Trail L m₀ s → Represents L (columns ++ s.covered) m → (columns ++ s.covered).Nodup →
      (∀ c ∈ columns, c ∈ L.table.columns) → m.undo action = .ok s.matrix →
      Trail L m₀ ⟨m, (action, columns) :: s.pending⟩

namespace Trail

variable {L : Layout} {m₀ : Matrix} {s : Session}

open Layout

theorem represents (h : Trail L m₀ s) : Represents L s.covered s.matrix := by
  cases h with
  | start h => exact h
  | perform _ h => exact h

theorem nodup_covered (h : Trail L m₀ s) : s.covered.Nodup := by
  cases h with
  | start => exact List.nodup_nil
  | perform _ _ h => exact h

theorem covered_subset (h : Trail L m₀ s) : ∀ c ∈ s.covered, c ∈ L.table.columns := by
  induction h with
  | start => simp [Session.covered]
  | perform _ _ _ hcolumns _ ih =>
    intro c hc
    rcases List.mem_append.mp hc with hc | hc
    · exact hcolumns c hc
    · exact ih c hc

/-- When nothing is left to undo, the matrix is the first one. -/
theorem eq_start (h : Trail L m₀ s) (hpending : s.pending = []) : s = ⟨m₀, []⟩ := by
  cases h with
  | start => rfl
  | perform => cases hpending

/-- The columns that covering the rest of a row covers. -/
theorem coveredBy_coverRow {covered : List ColumnId} {m : Matrix} (h : Represents L covered m)
    {u v : List Cell} {x : Cell} (hr : u ++ x :: v ∈ L.rows) :
    m.coveredBy (.coverRow x.id) = .ok ((v ++ u).map Cell.column).reverse := by
  have hcolumns : ((v ++ u).map Cell.id).mapM m.columnOf = .ok ((v ++ u).map Cell.column) := by
    rw [List.mapM_map]
    exact mapM_eq_ok fun z hz =>
      Shows.columnOf_cell h (List.mem_flatten_of_mem hr (mem_of_rest hz))
  simp only [Matrix.coveredBy, Shows.rowNodes h hr, ok_bind, List.map_cons, List.tail_cons,
    hcolumns, pure_eq_ok]

/-- Where a row is permitted to be covered from a node, its other columns are live: the column
covered last still shows the rows that were left when it was covered. -/
theorem split_of_permits (h : Trail L m₀ s) {n : NodeId}
    (hpermits : s.Permits (.perform (.coverRow n))) :
    ∃ u x v, u ++ x :: v ∈ L.rows ∧ x.id = n ∧ ∀ z ∈ v ++ u, z.column ∉ s.covered := by
  have hrep := h.represents
  rcases hpermits with ⟨c, hc, hn⟩ | ⟨node, others, hnode, hheader, hothers, hlive⟩
  · obtain ⟨covered, hcovered⟩ := List.head?_eq_some_iff.mp hc
    have hnodup := h.nodup_covered
    have hcolumn := h.covered_subset c (by simp [hcovered])
    -- the cover did not change what is below its own head
    rw [hcovered] at hrep hnodup ⊢
    rw [Shows.lists_columnNodes hrep hcolumn, filter_hidden_cons,
      filter_hidden (List.nodup_cons.mp hnodup).1] at hn
    obtain ⟨u, x, v, hr, hx, rfl, halive⟩ := exists_split hn
    refine ⟨u, x, v, hr, hx, fun z hz => ?_⟩
    rw [List.mem_cons, not_or]
    exact ⟨column_ne_of_split hr hz, halive z hz⟩
  · obtain ⟨r, hr, x, hx, rfl⟩ := Shows.cell_of_node hrep hnode hheader
    obtain ⟨u, v, rfl⟩ := List.append_of_mem hx
    rw [coveredBy_coverRow hrep hr] at hothers
    cases hothers
    refine ⟨u, x, v, hr, rfl, fun z hz => ?_⟩
    have hlists := hlive z.column (List.mem_reverse.mpr (List.mem_map_of_mem hz))
    exact (Table.mem_live.mp ((Shows.lists_live hrep).mp hlists)).2

/-- **An action that is permitted succeeds, and could be undone next.** -/
theorem perform_step (h : Trail L m₀ s) {action : Action} (hpermits : s.Permits (.perform action)) :
    ∃ s', s.step (.perform action) = .ok s' ∧ Trail L m₀ s' := by
  have hrep := h.represents
  cases action with
  | cover c =>
    have hc := (Shows.lists_live hrep).mp hpermits
    obtain ⟨m', hcover, hm', huncover⟩ := hrep.cover hc
    obtain ⟨hcolumn, hfree⟩ := Table.mem_live.mp hc
    refine ⟨⟨m', (.cover c, [c]) :: s.pending⟩, ?_, ?_⟩
    · simp [Session.step, Matrix.coveredBy, Matrix.perform, hcover]
    · exact h.perform hm' (List.nodup_cons.mpr ⟨hfree, h.nodup_covered⟩) (by simpa using hcolumn)
        huncover
  | coverRow n =>
    obtain ⟨u, x, v, hr, rfl, hfree⟩ := h.split_of_permits hpermits
    obtain ⟨m', hcover, hm', huncover⟩ := hrep.coverRow hr hfree
    refine ⟨⟨m', (.coverRow x.id, ((v ++ u).map Cell.column).reverse) :: s.pending⟩, ?_, ?_⟩
    · simp only [Session.step, coveredBy_coverRow hrep hr, Matrix.perform, hcover, ok_bind,
        pure_eq_ok]
    · refine h.perform hm' ?_ (fun c hc => ?_) huncover
      · have hnodup : ((v ++ u).map Cell.column).Nodup :=
          (List.nodup_cons.mp (nodup_columns_from hr)).2
        refine (List.nodup_reverse.mpr hnodup).append h.nodup_covered fun c hc hcovered => ?_
        obtain ⟨z, hz, rfl⟩ := List.mem_map.mp (List.mem_reverse.mp hc)
        exact hfree z hz hcovered
      · obtain ⟨z, hz, rfl⟩ := List.mem_map.mp (List.mem_reverse.mp hc)
        exact column_mem hr (mem_of_rest hz)

/-- **The undoing that is permitted succeeds, and takes the session back.** -/
theorem undo_step (h : Trail L m₀ s) {action : Action} (hpermits : s.Permits (.undo action)) :
    ∃ s', s.step (.undo action) = .ok s' ∧ Trail L m₀ s' := by
  cases h with
  | start => cases hpermits
  | @perform s _ _ m h _ _ _ hundo =>
    cases hpermits
    refine ⟨s, ?_, h⟩
    simp [Session.step, hundo]

/-- **Every call that is permitted succeeds.** -/
theorem step (h : Trail L m₀ s) {call : Call} (hpermits : s.Permits call) :
    ∃ s', s.step call = .ok s' ∧ Trail L m₀ s' := by
  cases call with
  | perform action => exact h.perform_step hpermits
  | undo action => exact h.undo_step hpermits

/-- **A run of permitted calls ends where it began.** Induction on the calls, with the trail as the
invariant. -/
theorem run (h : Trail L m₀ s) {calls : List Call} (hcalls : s.Bracketed calls) :
    s.run calls = .ok ⟨m₀, []⟩ := by
  induction calls generalizing s with
  | nil =>
    rw [h.eq_start hcalls]
    rfl
  | cons call calls ih =>
    obtain ⟨hpermits, hrest⟩ := hcalls
    obtain ⟨s', hstep, hs'⟩ := h.step hpermits
    have hrun := ih hs' (hrest s' hstep)
    simpa [Session.run, hstep] using hrun

end Trail

/-! ## The matrix after all calls -/

/-- **Calls nested like brackets leave the matrix as it was.** This holds of every matrix that can
be built, and of the whole of it: each link of each node, whether it is in its lists or not, and
each column with its size. No call fails on the way. -/
theorem run_of_bracketed (additions : List Addition) :
    ∃ m, Matrix.build additions = .ok m ∧
      ∀ calls, Session.Bracketed ⟨m, []⟩ calls → Session.run ⟨m, []⟩ calls = .ok ⟨m, []⟩ := by
  obtain ⟨L, m, hbuild, hm, -⟩ := Represents.build additions
  exact ⟨m, hbuild, fun calls hcalls => (Trail.start hm).run hcalls⟩

/-- A search that covers a column, tries both rows through it, and below the first of them covers
one column more. -/
theorem run_of_bracketed_search :
    ∃ m, Matrix.build [.column "a", .column "b", .column "c", .row ["a", "b"], .row ["a"],
        .row ["b", "c"]] = .ok m ∧
      Session.run ⟨m, []⟩ [.perform (.cover 1), .perform (.coverRow 4), .perform (.cover 3),
        .undo (.cover 3), .undo (.coverRow 4), .perform (.coverRow 6), .undo (.coverRow 6),
        .undo (.cover 1)] = .ok ⟨m, []⟩ := by
  obtain ⟨m, hbuild, hrun⟩ := run_of_bracketed [.column "a", .column "b", .column "c",
    .row ["a", "b"], .row ["a"], .row ["b", "c"]]
  refine ⟨m, hbuild, hrun _ ?_⟩
  cases hbuild
  decide +kernel

end ExactCover
