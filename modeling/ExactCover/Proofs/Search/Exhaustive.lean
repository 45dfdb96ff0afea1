import ExactCover.Proofs.Search.AlgorithmX
import Mathlib.Data.List.Forall2

/-!
# What a search finds, and what it cannot miss

Facts about Algorithm X that hold for every puzzle. What it finds is a list of moves that the puzzle
accepts, read from rows that cover every live column exactly once. If some rows that are left cover
every live column exactly once, each of them reads as a move from any of its columns, and the puzzle
accepts these moves in any order, then the search does not end without a solution unless the budget
ends it.

* **`AlgorithmX.mem_precover`**: what is covered before the search.
* **`AlgorithmX.descend_induction`**: what holds of the reports at the leaves holds of every report.
* **`AlgorithmX.descend_found`, `AlgorithmX.descend_unlimited`**: solutions are accepted, and a
  search without a budget is never aborted.
* **`Table.IsExactCover`**: the rows that are looked for.
* **`Table.IsExactCover.rest`**, **`Table.IsExactCover.cons`**: once one of them is chosen, the
  others cover what is left, and the other way round.
* **`AlgorithmX.descend_exactCover`**: what is found is an exact cover.
* **`AlgorithmX.descend_complete`**: no exact cover is missed.
-/

namespace ExactCover

theorem perm_roundFrom {α : Type} [DecidableEq α] {l : List α} {a : α} (h : a ∈ l) :
    (a :: roundFrom (· == a) l).Perm l := by
  obtain ⟨u, v, rfl, hu⟩ := List.eq_append_cons_of_mem h
  have hbefore : ∀ x ∈ u, (!(x == a)) = true := fun x hx => by
    simpa using fun heq : x = a => hu (heq ▸ hx)
  have hround : roundFrom (· == a) (u ++ a :: v) = v ++ u := by
    simp [roundFrom, List.dropWhile_append_of_pos hbefore, List.takeWhile_append_of_pos hbefore]
  rw [hround]
  exact perm_round u v a

namespace AlgorithmX

variable {σ μ : Type} [Puzzle σ μ] {t : Table} {p : σ} {o : Search.Options}
  {covered : List ColumnId} {chosen : List μ} {explored : Nat} {c : ColumnId}

/-! ## Before the search -/

/-- Where no two columns have the same key, the columns that are covered before the search are
those of the initial keys. A key that comes twice is skipped, but its column is covered all the
same. -/
theorem mem_precover (hnodup : t.keys.Nodup) (hc : c ∈ t.columns) (keys : List String) :
    c ∈ (precover t covered keys).1 ↔ c ∈ covered ∨ t.key c ∈ keys := by
  have hfold : ∀ skipped, c ∈ (keys.foldl (precoverKey t) (covered, skipped)).1 ↔
      c ∈ covered ∨ t.key c ∈ keys := by
    induction keys generalizing covered with
    | nil => simp
    | cons key keys ih =>
      intro skipped
      rw [List.foldl_cons, precoverKey]
      cases hfind : t.find? covered key with
      | some d =>
        have hdkey : t.key d = key := by simpa using List.find?_some hfind
        have hd := (Table.mem_live.mp (List.mem_of_find?_eq_some hfind)).1
        have hiff : c = d ↔ t.key c = key :=
          ⟨fun heq => heq ▸ hdkey,
            fun heq => Table.key_injective hnodup hc hd (heq.trans hdkey.symm)⟩
        simp only [ih, List.mem_cons, hiff]
        tauto
      | none =>
        -- no live column has the key, so its column was covered before
        have hgone : t.key c = key → c ∈ covered := fun heq => by
          by_contra hfree
          have hnot := List.find?_eq_none.mp hfind c (Table.mem_live.mpr ⟨hc, hfree⟩)
          simp [heq] at hnot
        simp only [ih, List.mem_cons]
        tauto
  exact hfold 0

/-! ## Reports -/

/-- The loop over rows answers what a search below one of them answered, or nothing. -/
theorem tryRows_induction {P : Report μ → Prop} {below : List ColumnId → List μ → Nat → Report μ}
    (hnone : ∀ explored, P ⟨explored, false, none⟩)
    (hbelow : ∀ others chosen explored, P (below others chosen explored))
    (rows : List (List ColumnId)) (explored : Nat) :
    P (tryRows t p below c covered chosen rows explored) := by
  induction rows generalizing explored with
  | nil => exact hnone explored
  | cons row rows ih =>
    rw [tryRows]
    split
    · exact ih explored
    · dsimp only
      split_ifs
      · exact hbelow _ _ _
      · exact ih _

/-- **What holds of every leaf holds of every search.** Induction on the number of live columns. -/
theorem descend_induction {P : Report μ → Prop}
    (hover : ∀ explored, isOver o.budget explored = true → P ⟨explored, true, none⟩)
    (hnone : ∀ explored, P ⟨explored, false, none⟩)
    (hleaf : ∀ chosen explored,
      P ⟨explored, false, if solves p chosen then some chosen else none⟩) :
    P (descend t p o covered chosen explored) := by
  induction hlive : (t.live covered).length using Nat.strong_induction_on
    generalizing covered chosen explored with
  | h n ih =>
    subst hlive
    cases hbudget : isOver o.budget explored with
    | true =>
      rw [descend_of_over hbudget]
      exact hover explored hbudget
    | false =>
      cases hchoose : choose o.branching t covered with
      | none =>
        rw [descend_of_none hbudget hchoose]
        exact hleaf chosen explored
      | some c =>
        rw [descend_of_some hbudget hchoose]
        exact tryRows_induction hnone (fun others chosen explored => ih _
          (Nat.lt_of_le_of_lt Table.length_live_append_le
            (Table.length_live_cons_lt (choose_mem hchoose))) rfl) _ _

/-- **What a search finds is accepted by the puzzle.** -/
theorem descend_found {moves : List μ}
    (h : (descend t p o covered chosen explored).found = some moves) :
    Puzzle.isSolvedBy p moves = true := by
  revert h
  refine descend_induction (P := fun report => report.found = some moves → _) ?_ ?_ ?_
  · intro _ _ h
    cases h
  · intro _ h
    cases h
  · intro chosen _ h
    dsimp only at h
    split_ifs at h with hsolved
    cases h
    rwa [solves_eq] at hsolved

/-- **A search without a budget is not aborted.** -/
theorem descend_unlimited (h : o.budget = none) :
    (descend t p o covered chosen explored).aborted = false := by
  refine descend_induction (P := fun report => report.aborted = false) ?_ ?_ ?_
  · intro explored hover
    rw [h] at hover
    cases hover
  · exact fun _ => rfl
  · exact fun _ _ => rfl

end AlgorithmX

/-! ## Exact covers -/

/-- Rows of the table that are left and meet every live column exactly once. -/
structure Table.IsExactCover (t : Table) (covered : List ColumnId) (rows : List (List ColumnId)) :
    Prop where
  mem : ∀ r ∈ rows, r ∈ t.rows
  ne_nil : ∀ r ∈ rows, r ≠ []
  live : ∀ r ∈ rows, ∀ d ∈ r, d ∈ t.live covered
  once : ∀ d ∈ t.live covered, rows.countP (d ∈ ·) = 1

namespace Table.IsExactCover

variable {t : Table} {covered covered' : List ColumnId} {r : List ColumnId}
  {rows rows₁ rows₂ : List (List ColumnId)} {c : ColumnId}

theorem nil_of_live_nil (h : t.IsExactCover covered rows) (hlive : t.live covered = []) :
    rows = [] := by
  refine List.eq_nil_iff_forall_not_mem.mpr fun r hr => ?_
  obtain ⟨d, hd⟩ := List.exists_mem_of_ne_nil r (h.ne_nil r hr)
  simpa [hlive] using h.live r hr d hd

theorem exists_row (h : t.IsExactCover covered rows) (hc : c ∈ t.live covered) :
    ∃ rows₁ r rows₂, rows = rows₁ ++ r :: rows₂ ∧ c ∈ r := by
  have hpos : 0 < rows.countP (c ∈ ·) := by rw [h.once c hc]; exact Nat.one_pos
  obtain ⟨r, hr, hcr⟩ := List.countP_pos_iff.mp hpos
  obtain ⟨rows₁, rows₂, rfl⟩ := List.append_of_mem hr
  exact ⟨rows₁, r, rows₂, rfl, by simpa using hcr⟩

/-- **When the columns of one of the rows are covered, the others still cover what is left.** -/
theorem rest (h : t.IsExactCover covered (rows₁ ++ r :: rows₂))
    (hcovered : ∀ d, d ∈ covered' ↔ d ∈ r ∨ d ∈ covered) :
    t.IsExactCover covered' (rows₁ ++ rows₂) := by
  have hmem : ∀ r' ∈ rows₁ ++ rows₂, r' ∈ rows₁ ++ r :: rows₂ := fun r' hr' =>
    List.perm_middle.mem_iff.mpr (List.mem_cons_of_mem r hr')
  have hlive : ∀ d, d ∈ t.live covered' ↔ d ∈ t.live covered ∧ d ∉ r := fun d => by
    simp only [mem_live, hcovered]
    tauto
  have hcount : ∀ d, (rows₁ ++ r :: rows₂).countP (d ∈ ·) =
      (rows₁ ++ rows₂).countP (d ∈ ·) + if d ∈ r then 1 else 0 := fun d => by
    rw [List.perm_middle.countP_eq, List.countP_cons]
    simp only [decide_eq_true_eq]
  refine ⟨fun r' hr' => h.mem r' (hmem r' hr'), fun r' hr' => h.ne_nil r' (hmem r' hr'), ?_, ?_⟩
  · intro r' hr' d hd
    have hdlive := h.live r' (hmem r' hr') d hd
    refine (hlive d).mpr ⟨hdlive, fun hdr => ?_⟩
    -- else two of the rows meet the column
    have hpos : 0 < (rows₁ ++ rows₂).countP (d ∈ ·) :=
      List.countP_pos_iff.mpr ⟨r', hr', by simpa using hd⟩
    have honce := h.once d hdlive
    rw [hcount, if_pos hdr] at honce
    omega
  · intro d hd
    obtain ⟨hdlive, hdr⟩ := (hlive d).mp hd
    have honce := h.once d hdlive
    rwa [hcount, if_neg hdr] at honce

/-- **A row that is left, and an exact cover of what is left without it, are one of what is left
with it.** -/
theorem cons (h : t.IsExactCover covered' rows) (hr : r ∈ t.rows) (hne : r ≠ [])
    (hlive : ∀ d ∈ r, d ∈ t.live covered) (hcovered : ∀ d, d ∈ covered' ↔ d ∈ r ∨ d ∈ covered) :
    t.IsExactCover covered (r :: rows) := by
  have hrest : ∀ d, d ∈ t.live covered' ↔ d ∈ t.live covered ∧ d ∉ r := fun d => by
    simp only [mem_live, hcovered]
    tauto
  refine ⟨?_, ?_, ?_, fun d hd => ?_⟩
  · exact List.forall_mem_cons.mpr ⟨hr, h.mem⟩
  · exact List.forall_mem_cons.mpr ⟨hne, h.ne_nil⟩
  · exact List.forall_mem_cons.mpr
      ⟨hlive, fun r' hr' d hd => ((hrest d).mp (h.live r' hr' d hd)).1⟩
  · rw [List.countP_cons]
    by_cases hdr : d ∈ r
    · -- no other row meets a column that this one meets
      have hnone : rows.countP (d ∈ ·) = 0 := List.countP_eq_zero.mpr fun r' hr' hdr' =>
        ((hrest d).mp (h.live r' hr' d (by simpa using hdr'))).2 hdr
      simp [hdr, hnone]
    · simp [hdr, h.once d ((hrest d).mpr ⟨hd, hdr⟩)]

end Table.IsExactCover

/-! ## Soundness -/

namespace AlgorithmX

variable {σ μ : Type} [Puzzle σ μ] {t : Table} {p : σ} {o : Search.Options} {c : ColumnId}
  {covered : List ColumnId} {chosen moves : List μ} {explored : Nat}

/-- Whether a row, read from one of its columns round to it again, is this move. -/
def ReadsAs (t : Table) (p : σ) (row : List ColumnId) (move : μ) : Prop :=
  ∃ c ∈ row, Puzzle.ofKeys? p ((c :: roundFrom (· == c) row).map t.key) = some move

/-- What the loop over rows finds was found below one of them. -/
theorem tryRows_found {below : List ColumnId → List μ → Nat → Report μ}
    {rows : List (List ColumnId)}
    (h : (tryRows t p below c covered chosen rows explored).found = some moves) :
    ∃ r ∈ rows, ∃ move explored',
      Puzzle.ofKeys? p ((c :: roundFrom (· == c) r).map t.key) = some move ∧
      (below (roundFrom (· == c) r) (chosen ++ [move]) explored').found = some moves := by
  induction rows generalizing explored with
  | nil => cases h
  | cons row rows ih =>
    rw [tryRows] at h
    split at h
    case h_1 =>
      obtain ⟨r, hr, hfound⟩ := ih h
      exact ⟨r, List.mem_cons_of_mem row hr, hfound⟩
    case h_2 move hmove =>
      dsimp only at h
      split_ifs at h
      · exact ⟨row, List.mem_cons_self, move, _, hmove, h⟩
      · obtain ⟨r, hr, hfound⟩ := ih h
        exact ⟨r, List.mem_cons_of_mem row hr, hfound⟩

/-- The columns that are covered below a row: those of the row, and those covered before. -/
theorem mem_covered_below {r : List ColumnId} (hc : c ∈ r) (d : ColumnId) :
    d ∈ (roundFrom (· == c) r).reverse ++ c :: covered ↔ d ∈ r ∨ d ∈ covered := by
  rw [← (perm_roundFrom hc).mem_iff]
  simp [or_assoc, or_left_comm]

/-- **What a search finds is an exact cover.** The moves that it adds to the chosen ones were read
from rows that cover every live column exactly once. Induction on the number of live columns. -/
theorem descend_exactCover (hinside : ∀ r ∈ t.rows, ∀ d ∈ r, d ∈ t.columns)
    (h : (descend t p o covered chosen explored).found = some moves) :
    ∃ rows rest, moves = chosen ++ rest ∧ t.IsExactCover covered rows ∧
      List.Forall₂ (ReadsAs t p) rows rest := by
  induction hcount : (t.live covered).length using Nat.strong_induction_on
    generalizing covered chosen explored with
  | h n ih =>
    subst hcount
    cases hbudget : isOver o.budget explored with
    | true =>
      rw [descend_of_over hbudget] at h
      cases h
    | false =>
      cases hchoose : choose o.branching t covered with
      | none =>
        rw [descend_of_none hbudget hchoose] at h
        have hnone := choose_eq_none.mp hchoose
        simp only [Option.ite_none_right_eq_some, Option.some.injEq] at h
        refine ⟨[], [], by simp [h.2], ⟨by simp, by simp, by simp, ?_⟩, .nil⟩
        simp [hnone]
      | some c =>
        rw [descend_of_some hbudget hchoose] at h
        obtain ⟨r, hr, move, explored', hmove, hfound⟩ := tryRows_found h
        obtain ⟨hrow, hc, hfree⟩ := Table.mem_through.mp hr
        have hfewer : (t.live ((roundFrom (· == c) r).reverse ++ c :: covered)).length <
            (t.live covered).length :=
          Nat.lt_of_le_of_lt Table.length_live_append_le
            (Table.length_live_cons_lt (choose_mem hchoose))
        obtain ⟨rows, rest, rfl, hcover, hreads⟩ := ih _ hfewer hfound rfl
        refine ⟨r :: rows, move :: rest, by simp, ?_, .cons ⟨c, hc, hmove⟩ hreads⟩
        exact hcover.cons hrow (List.ne_nil_of_mem hc)
          (fun d hd => Table.mem_live.mpr ⟨hinside r hrow d hd, hfree d hd⟩) (mem_covered_below hc)

end AlgorithmX

/-! ## Completeness -/

namespace AlgorithmX

variable {σ μ : Type} [Puzzle σ μ] {t : Table} {p : σ} {o : Search.Options} {c : ColumnId}

/-- Whether a search ended with a solution, or because of its budget. -/
def Report.Ended (report : Report μ) : Prop := report.aborted = true ∨ report.found.isSome = true

/-- The loop over rows does not pass a row below which the search ends. Induction on the rows before
it. -/
theorem tryRows_complete {covered : List ColumnId} {chosen : List μ} {move : μ} {r : List ColumnId}
    {below : List ColumnId → List μ → Nat → Report μ}
    (hdecode : Puzzle.ofKeys? p ((c :: roundFrom (· == c) r).map t.key) = some move)
    (hbelow : ∀ explored, (below (roundFrom (· == c) r) (chosen ++ [move]) explored).Ended) :
    ∀ (before : List (List ColumnId)) {after : List (List ColumnId)} (explored : Nat),
      (tryRows t p below c covered chosen (before ++ r :: after) explored).Ended
  | [], after, explored => by
    have hended : _ ∨ _ := hbelow (explored + t.costAll covered (roundFrom (· == c) r))
    rw [List.nil_append, tryRows, hdecode]
    simp only
    rw [if_pos hended]
    exact hended
  | row :: before, after, explored => by
    rw [List.cons_append, tryRows]
    split
    · exact tryRows_complete hdecode hbelow before explored
    · dsimp only
      split_ifs with hended
      · exact hended
      · exact tryRows_complete hdecode hbelow before _

/-- **No exact cover is missed.** If moves that were not chosen yet complete the chosen ones to an
exact cover, and the puzzle accepts all of them in every order, then the search ends with a
solution or because of its budget. Induction on the number of live columns: the column that is
branched on is met by one of the moves, and the others are an exact cover of what is left below
it. -/
theorem descend_complete {covered : List ColumnId} {chosen moves : List μ} {row : μ → List ColumnId}
    (hcover : t.IsExactCover covered (moves.map row))
    (hdecode : ∀ a ∈ moves, ∀ c ∈ row a,
      Puzzle.ofKeys? p ((c :: roundFrom (· == c) (row a)).map t.key) = some a)
    (haccept : ∀ played, played.Perm (chosen ++ moves) → Puzzle.isSolvedBy p played = true)
    (explored : Nat) : (descend t p o covered chosen explored).Ended := by
  induction hlive : (t.live covered).length using Nat.strong_induction_on
    generalizing covered chosen moves explored with
  | h n ih =>
    subst hlive
    cases hbudget : isOver o.budget explored with
    | true =>
      rw [descend_of_over hbudget]
      exact Or.inl rfl
    | false =>
      cases hchoose : choose o.branching t covered with
      | none =>
        -- nothing is left to choose, so all moves of the cover were chosen
        have hnil := hcover.nil_of_live_nil (choose_eq_none.mp hchoose)
        rw [List.map_eq_nil_iff] at hnil
        subst hnil
        have hsolved := haccept chosen (by simp)
        rw [descend_of_none hbudget hchoose]
        exact Or.inr (by simp [solves_eq, hsolved])
      | some c =>
        have hc := choose_mem hchoose
        -- the move that meets the column, and its place among the rows that are tried
        obtain ⟨rows₁, r, rows₂, hrows, hcr⟩ := hcover.exists_row hc
        obtain ⟨moves₁, rest, rfl, rfl, hrest⟩ := List.map_eq_append_iff.mp hrows
        obtain ⟨move, moves₂, rfl, rfl, rfl⟩ := List.map_eq_cons_iff.mp hrest
        have hmove : move ∈ moves₁ ++ move :: moves₂ := by simp
        have hmem := List.mem_map_of_mem (f := row) hmove
        have hthrough : row move ∈ t.through covered c := Table.mem_through.mpr
          ⟨hcover.mem _ hmem, hcr, fun d hd => (Table.mem_live.mp (hcover.live _ hmem d hd)).2⟩
        obtain ⟨before, after, hsplit⟩ := List.append_of_mem hthrough
        have hleft : t.IsExactCover ((roundFrom (· == c) (row move)).reverse ++ c :: covered)
            ((moves₁ ++ moves₂).map row) := by
          have hcover' := hcover
          rw [List.map_append, List.map_cons] at hcover'
          rw [List.map_append]
          exact hcover'.rest (mem_covered_below hcr)
        rw [descend_of_some hbudget hchoose, hsplit]
        refine tryRows_complete (hdecode move hmove c hcr) (fun explored => ?_) before _
        have hrest : ∀ a ∈ moves₁ ++ moves₂, a ∈ moves₁ ++ move :: moves₂ := fun a ha =>
          List.perm_middle.mem_iff.mpr (List.mem_cons_of_mem move ha)
        refine ih _ ?_ hleft (fun a ha => hdecode a (hrest a ha)) (fun played hplayed => ?_)
          explored rfl
        · exact Nat.lt_of_le_of_lt Table.length_live_append_le (Table.length_live_cons_lt hc)
        · refine haccept played (hplayed.trans ?_)
          rw [List.append_assoc, List.singleton_append]
          exact List.perm_middle.symm.append_left chosen

end AlgorithmX

end ExactCover
