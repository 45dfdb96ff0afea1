import ExactCover.Proofs.Matrix.Nesting
import ExactCover.Proofs.Search.Refinement

/-!
# The column that is branched on

The scan for a column with few rows reads the sizes that are kept with the columns, and it stops at
the first empty column. It is right only if every size is the number of nodes that are below the
head at that moment, whatever was covered and uncovered before. So it is, in every session: the
choice is the same as if the nodes below all live heads had been counted.

* **`Matrix.IsFewest`**: the first of the live columns with the fewest nodes, counted in the lists.
* **`Session.Admits`**: calls that are permitted when they are made; some may be left to undo.
* **`Trail.run_admitted`**: such calls succeed, and the session goes on from them.
* **`Represents.isFewest_iff`**: the columns with the fewest nodes are those with the fewest rows.
* **`choose_exact`**: the result for every matrix that can be built, and all calls.
-/

namespace ExactCover

/-! ## The fewest -/

/-- The first of the best elements of a list is worse than none before it, and none after it is
better. -/
theorem argmin_eq_some_iff_split {α : Type} [DecidableEq α] {f : α → Nat} {l : List α} {c : α} :
    l.argmin f = some c ↔ ∃ before after, l = before ++ c :: after ∧
      (∀ d ∈ before, f c < f d) ∧ ∀ d ∈ after, f c ≤ f d := by
  rw [List.argmin_eq_some_iff]
  constructor
  · rintro ⟨hc, hmin, hfirst⟩
    obtain ⟨before, after, rfl, hbefore⟩ := List.eq_append_cons_of_mem hc
    refine ⟨before, after, rfl, fun d hd => ?_, fun d hd => hmin d (by simp [hd])⟩
    refine Nat.lt_of_not_le fun hle => ?_
    -- an equally good element further up would come first
    have hindex := hfirst d (by simp [hd]) hle
    rw [List.idxOf_append_of_notMem hbefore, List.idxOf_append_of_mem hd] at hindex
    have hlt := List.idxOf_lt_length_of_mem hd
    omega
  · rintro ⟨before, after, rfl, hbefore, hafter⟩
    have hself : c ∉ before := fun hmem => Nat.lt_irrefl _ (hbefore c hmem)
    refine ⟨by simp, fun d hd => ?_, fun d _ hle => ?_⟩
    · rcases List.mem_append.mp hd with hd | hd
      · exact Nat.le_of_lt (hbefore d hd)
      · rcases List.mem_cons.mp hd with rfl | hd
        · exact Nat.le_refl _
        · exact hafter d hd
    · have hd : d ∉ before := fun hmem => Nat.not_lt_of_le hle (hbefore d hmem)
      rw [List.idxOf_append_of_notMem hself, List.idxOf_append_of_notMem hd, List.idxOf_cons_self]
      omega

namespace Matrix

/-- How many nodes are met below the head of a column. -/
def height (m : Matrix) (c : ColumnId) : Except Fault Nat := return (← m.columnNodes c).length

/-- The column is live, every live column before it has more nodes below its head, and none after it
has fewer. -/
def IsFewest (m : Matrix) (c : ColumnId) : Prop :=
  ∃ before after height, m.live = .ok (before ++ c :: after) ∧ m.height c = .ok height ∧
    (∀ d ∈ before, ∃ height', m.height d = .ok height' ∧ height < height') ∧
    ∀ d ∈ after, ∃ height', m.height d = .ok height' ∧ height ≤ height'

end Matrix

namespace Represents

variable {L : Layout} {covered : List ColumnId} {m : Matrix}

open Layout

theorem height (h : Represents L covered m) {c : ColumnId} (hc : c ∈ L.table.live covered) :
    m.height c = .ok (L.table.through covered c).length := by
  obtain ⟨hcolumn, hfree⟩ := Table.mem_live.mp hc
  rw [Matrix.height, Shows.columnNodes h hcolumn, table_through, List.length_map,
    ← length_filter_hidden hfree]
  rfl

/-- **The columns with the fewest nodes are those with the fewest rows.** -/
theorem isFewest_iff (h : Represents L covered m) {c : ColumnId} :
    m.IsFewest c ↔ AlgorithmX.choose .fewestRows L.table covered = some c := by
  have hheight : ∀ d ∈ L.table.live covered, ∀ n, m.height d = .ok n ↔
      (L.table.through covered d).length = n := fun d hd n => by
    rw [h.height hd, Except.ok.injEq]
  rw [AlgorithmX.choose, argmin_eq_some_iff_split, Matrix.IsFewest, Shows.live h]
  refine exists_congr fun before => exists_congr fun after => ?_
  rw [Except.ok.injEq]
  constructor
  · rintro ⟨height, hlive, hc, hbefore, hafter⟩
    rw [hlive] at hheight ⊢
    rw [hheight c (by simp)] at hc
    refine ⟨rfl, fun d hd => ?_, fun d hd => ?_⟩
    · obtain ⟨height', hd', hlt⟩ := hbefore d hd
      rw [hheight d (by simp [hd])] at hd'
      omega
    · obtain ⟨height', hd', hle⟩ := hafter d hd
      rw [hheight d (by simp [hd])] at hd'
      omega
  · rintro ⟨hlive, hbefore, hafter⟩
    rw [hlive] at hheight ⊢
    exact ⟨_, rfl, (hheight c (by simp) _).mpr rfl,
      fun d hd => ⟨_, (hheight d (by simp [hd]) _).mpr rfl, hbefore d hd⟩,
      fun d hd => ⟨_, (hheight d (by simp [hd]) _).mpr rfl, hafter d hd⟩⟩

end Represents

/-! ## Sessions that go on -/

namespace Session

/-- Every call is permitted when it is made. Some may be left to undo. -/
def Admits (s : Session) : List Call → Prop
  | [] => True
  | call :: calls => s.Permits call ∧ ∀ s', s.step call = .ok s' → s'.Admits calls

instance decidableAdmits : (s : Session) → (calls : List Call) → Decidable (s.Admits calls)
  | _, [] => isTrue trivial
  | s, call :: calls =>
    let rest : Decidable (∀ s', s.step call = .ok s' → s'.Admits calls) :=
      match hstep : s.step call with
      | .ok s' =>
        have := decidableAdmits s' calls
        decidable_of_iff (s'.Admits calls) (by simp)
      | .error _ => isTrue (by simp)
    inferInstanceAs (Decidable (_ ∧ _))

end Session

/-- **Calls that are permitted succeed.** Induction on the calls; the trail is the invariant. -/
theorem Trail.run_admitted {L : Layout} {m₀ : Matrix} {s : Session} (h : Trail L m₀ s)
    {calls : List Call} (hcalls : s.Admits calls) :
    ∃ s', s.run calls = .ok s' ∧ Trail L m₀ s' := by
  induction calls generalizing s with
  | nil => exact ⟨s, rfl, h⟩
  | cons call calls ih =>
    obtain ⟨hpermits, hrest⟩ := hcalls
    obtain ⟨s₁, hstep, h₁⟩ := h.step hpermits
    obtain ⟨s', hrun, h'⟩ := ih h₁ (hrest s₁ hstep)
    refine ⟨s', ?_, h'⟩
    rw [Session.run, List.foldlM_cons, hstep]
    exact hrun

/-! ## Every matrix -/

/-- **The column branched on is the right one in every session.** Of any matrix that can be built,
let columns be covered and uncovered, each live when it is covered and the latest uncovered first.
The live columns are then those that are not covered, in the order in which they were added. The
first rule chooses the first of those with the fewest nodes in the list below the head, the second
one the first column, and both choose nothing if and only if every column is covered. -/
theorem choose_exact (additions : List Addition) :
    ∃ m, Matrix.build additions = .ok m ∧ ∀ calls, Session.Admits ⟨m, []⟩ calls →
      ∃ s, Session.run ⟨m, []⟩ calls = .ok s ∧
        s.matrix.live = .ok ((List.range' 1 m.columnCount).filter (· ∉ s.covered)) ∧
        (∀ b : Branching, ∃ choice, b.choose s.matrix = .ok choice) ∧
        (∀ c, Branching.fewestRows.choose s.matrix = .ok (some c) ↔ s.matrix.IsFewest c) ∧
        (∀ c, Branching.firstColumn.choose s.matrix = .ok (some c) ↔
          ∃ rest, s.matrix.live = .ok (c :: rest)) ∧
        ∀ b : Branching, b.choose s.matrix = .ok none ↔
          ∀ c, 1 ≤ c → c ≤ m.columnCount → c ∈ s.covered := by
  obtain ⟨L, m, hbuild, hm, -⟩ := Represents.build additions
  have hcount : m.columnCount = L.table.keys.length := by
    rw [Matrix.columnCount, hm.columnCount, Nat.add_sub_cancel]
    rfl
  refine ⟨m, hbuild, fun calls hcalls => ?_⟩
  obtain ⟨s, hrun, htrail⟩ := (Trail.start hm).run_admitted hcalls
  have hs := htrail.represents
  refine ⟨s, hrun, ?_, fun b => ⟨_, Branching.choose_eq hs b⟩, fun c => ?_, fun c => ?_,
    fun b => ?_⟩
  · rw [Layout.Shows.live hs, hcount]
    rfl
  · rw [Branching.choose_eq hs, Except.ok.injEq, hs.isFewest_iff]
  · rw [Branching.choose_eq hs, Layout.Shows.live hs]
    simp only [Except.ok.injEq, AlgorithmX.choose]
    exact List.head?_eq_some_iff
  · rw [Branching.choose_eq hs, Except.ok.injEq, AlgorithmX.choose_eq_none, hcount,
      List.eq_nil_iff_forall_not_mem]
    simp only [Table.mem_live, Table.mem_columns, not_and, not_not, and_imp]

/-- The last two columns have one node each, and the first of them is chosen, after another column
was covered, and a further one covered and uncovered. -/
theorem choose_exact_tie :
    ∃ m s, Matrix.build [.column "a", .column "b", .column "c", .column "d", .row ["a", "b"],
        .row ["a", "c"], .row ["a", "d"], .row ["b", "d"]] = .ok m ∧
      Session.run ⟨m, []⟩ [.perform (.cover 2), .perform (.cover 1), .undo (.cover 1)] = .ok s ∧
      s.matrix.live = .ok [1, 3, 4] ∧ s.matrix.height 4 = .ok 1 ∧ s.matrix.IsFewest 3 := by
  obtain ⟨m, hbuild, hadmitted⟩ := choose_exact [.column "a", .column "b", .column "c",
    .column "d", .row ["a", "b"], .row ["a", "c"], .row ["a", "d"], .row ["b", "d"]]
  have hadmits : Session.Admits ⟨m, []⟩
      [.perform (.cover 2), .perform (.cover 1), .undo (.cover 1)] := by
    cases hbuild
    decide +kernel
  obtain ⟨s, hrun, -, -, hfewest, -⟩ := hadmitted _ hadmits
  obtain ⟨hlive, hheight, hchoice⟩ : s.matrix.live = .ok [1, 3, 4] ∧
      s.matrix.height 4 = .ok 1 ∧ Branching.fewestRows.choose s.matrix = .ok (some 3) := by
    cases hbuild
    cases hrun
    decide +kernel
  exact ⟨m, s, hbuild, hrun, hlive, hheight, (hfewest 3).mp hchoice⟩

end ExactCover
