import ExactCover.Proofs.Family.Encoding
import ExactCover.Proofs.Search.Outcome
import Mathlib.Data.List.Perm.Subperm

/-!
# Solving decides a family

The search starts from a matrix in which the items of the fixed subsets are covered, and its
solutions are replayed on the family as it is. So what it finds completes both: it holds once every
item that is not reserved, and once every item that is not covered. Where these are the same items,
as they are in a family whose fixed subsets share none, solving decides whether some of the declared
subsets, the fixed ones among them, hold every item exactly once.

A fixed subset that was refused is reserved all the same. It goes unnoticed if the fixed subsets
that were kept happen to hold all its items; then the family is solved without it.

* **`Family.Completes`**: what the search looks for, and **`Family.Declared.solve_completes`**.
* **`Family.IsPartition`**: some declared subsets hold every item exactly once.
* **`Family.completes_iff`**: after a declaration, to complete is to make a partition with the fixed
  subsets that were kept, provided that those that were refused go unnoticed.
* **`Family.solve_partitions`**: the result where the fixed subsets share no item.
* **`Family.solve_kept`**: the result for any fixed subsets.
-/

namespace ExactCover

namespace Family

variable {f : Family} {s t : Subset} {chosen : List Subset} {item : String} {d : Declaration}

/-! ## What is found -/

/-- Declared subsets that hold once every item that is not one of a fixed subset, and once every
item that is not covered, and no other items. -/
structure Completes (f : Family) (chosen : List Subset) : Prop where
  mem : ∀ s ∈ chosen, s ∈ f.subsets
  reserved : ∀ item ∈ f.items, f.reserved item + holders chosen item = 1
  marked : ∀ item ∈ f.items, f.marked item + holders chosen item = 1

theorem exists_perm_of_choices {played : List Choice}
    (h : played.Perm (chosen.map Subset.choice)) :
    ∃ chosen' : List Subset, chosen'.Perm chosen ∧ played = chosen'.map Subset.choice := by
  have hchoices : List.Forall₂ (fun c (s : Subset) => c = s.choice)
      (chosen.map Subset.choice) chosen := by
    rw [← List.forall₂_map_right_iff, List.forall₂_eq_eq_eq]
  obtain ⟨chosen', hplayed, hperm⟩ := List.perm_comp_forall₂ h hchoices
  rw [← List.forall₂_map_right_iff, List.forall₂_eq_eq_eq] at hplayed
  exact ⟨chosen', hperm, hplayed⟩

theorem Completes.covering (hchosen : f.Completes chosen) (h : f.Declared) :
    Puzzle.Covering f (fun c : Choice => (Puzzle.table f).meets c.keys)
      (chosen.map Subset.choice) where
  cover := by
    have hrows : (chosen.map Subset.choice).map (fun c => (Puzzle.table f).meets c.keys) =
        chosen.map f.row := List.map_map
    rw [hrows]
    exact (h.isExactCover_iff hchosen.mem).mpr hchosen.reserved
  reads move hmove c hc := by
    obtain ⟨s, hs, rfl⟩ := List.mem_map.mp hmove
    exact h.ofKeys?_row (hchosen.mem s hs) hc
  accepted played hplayed := by
    obtain ⟨chosen', hperm, rfl⟩ := exists_perm_of_choices hplayed
    refine (h.isSolvedBy_iff fun s hs => hchosen.mem s (hperm.subset hs)).mpr fun item hitem => ?_
    rw [holders, hperm.countP_eq]
    exact hchosen.marked item hitem

/-- **Solving a family, whatever was played.** A solution chooses subsets that complete the family.
Without a solution, and without having been aborted, there are no such subsets. -/
theorem Declared.solve_completes (h : f.Declared) (o : Search.Options) :
    ∃ out, Search.solve f o = .ok out ∧
      (out.tally.solved = true → ∃ chosen, out.moves = chosen.map Subset.choice ∧
        f.Completes chosen) ∧
      (out.tally.solved = false → out.tally.aborted = false → ¬ ∃ chosen, f.Completes chosen) ∧
      (o.budget = none → out.tally.aborted = false) := by
  obtain ⟨out, hsolve, hyes, hno, hbudget⟩ := Puzzle.solve_spec f o
  refine ⟨out, hsolve, fun hsolved => ?_, fun hsolved hfinished => ?_, hbudget⟩
  · obtain ⟨haccepted, rows, hcover, hreads⟩ := hyes hsolved
    obtain ⟨chosen, hmem, rfl, hmoves⟩ := h.exists_chosen hreads hcover.mem
    rw [hmoves] at haccepted
    exact ⟨chosen, hmoves, hmem, (h.isExactCover_iff hmem).mp hcover,
      (h.isSolvedBy_iff hmem).mp haccepted⟩
  · rintro ⟨chosen, hchosen⟩
    exact hno hsolved hfinished _ _ (hchosen.covering h)

/-! ## Partitions -/

/-- Declared subsets that hold every item exactly once between them. -/
structure IsPartition (f : Family) (chosen : List Subset) : Prop where
  mem : ∀ s ∈ chosen, s ∈ f.subsets
  once : ∀ item ∈ f.items, chosen.countP (item ∈ ·.items) = 1

/-- The fixed subsets that were kept hold every item of those that were refused. Only then a refused
one makes no difference to what is left to cover. -/
def Unnoticed (f : Family) : Prop := ∀ s ∈ f.fixed, ∀ item ∈ s.items, ∃ t ∈ f.kept, item ∈ t.items

theorem unnoticed_of_apart (h : f.fixed.Pairwise Subset.Apart) : f.Unnoticed :=
  fun s hs _ hitem => ⟨s, (kept_eq_fixed h).symm ▸ hs, hitem⟩

/-- In other words, the items that are reserved are those that are covered. -/
theorem unnoticed_iff (h : ofDeclaration d = .ok f) :
    f.Unnoticed ↔ ∀ item ∈ f.items, f.reserved item = f.marked item := by
  obtain ⟨hdeclared, -, hmarked⟩ := declared_of_ofDeclaration h
  constructor
  · intro hunnoticed item hitem
    unfold Family.reserved
    split_ifs with hfixed
    · obtain ⟨s, hs, hsitem⟩ := hfixed
      have hpos := holders_pos.mpr (hunnoticed s hs item hsitem)
      have hle : f.marked item ≤ 1 := Bool.toNat_le _
      rw [← hmarked item hitem] at hpos
      omega
    · rw [hmarked item hitem]
      refine (Nat.eq_zero_of_not_pos fun hpos => hfixed ?_).symm
      obtain ⟨t, ht, htitem⟩ := holders_pos.mp hpos
      exact ⟨t, kept_subset ht, htitem⟩
  · intro hsame s hs item hitem
    have hitems := hdeclared.mem_items (hdeclared.fixed s hs) hitem
    have hone := hsame item hitems
    rw [Family.reserved, if_pos ⟨s, hs, hitem⟩, hmarked item hitems] at hone
    exact holders_pos.mp (by omega)

/-- **After a declaration, to complete a family is to make a partition with the fixed subsets that
were kept,** if the others go unnoticed. If one of them is noticed, nothing completes it. -/
theorem completes_iff (h : ofDeclaration d = .ok f) :
    f.Completes chosen ↔ f.Unnoticed ∧ f.IsPartition (f.kept ++ chosen) := by
  obtain ⟨-, hkept, hmarked⟩ := declared_of_ofDeclaration h
  have hcount : ∀ item ∈ f.items,
      (f.kept ++ chosen).countP (item ∈ ·.items) = f.marked item + holders chosen item :=
    fun item hitem => by rw [hmarked item hitem, ← holders_append, holders]
  rw [unnoticed_iff h]
  constructor
  · rintro ⟨hmem, hreserved, honce⟩
    refine ⟨fun item hitem => ?_, fun s hs => ?_, fun item hitem => ?_⟩
    · exact Nat.add_right_cancel ((hreserved item hitem).trans (honce item hitem).symm)
    · exact (List.mem_append.mp hs).elim (hkept s) (hmem s)
    · rw [hcount item hitem]
      exact honce item hitem
  · rintro ⟨hsame, hmem, honce⟩
    have hone : ∀ item ∈ f.items, f.marked item + holders chosen item = 1 :=
      fun item hitem => hcount item hitem ▸ honce item hitem
    exact ⟨fun s hs => hmem s (List.mem_append_right _ hs),
      fun item hitem => by rw [hsame item hitem]; exact hone item hitem, hone⟩

theorem Declared.pairwise_apart (h : f.Declared) (hmem : ∀ s ∈ chosen, s ∈ f.subsets)
    (hone : ∀ item ∈ f.items, holders chosen item ≤ 1) : chosen.Pairwise Subset.Apart := by
  induction chosen with
  | nil => exact .nil
  | cons s chosen ih =>
    obtain ⟨hs, hrest⟩ := List.forall_mem_cons.mp hmem
    have hcons : ∀ item ∈ f.items, holders chosen item + (if item ∈ s.items then 1 else 0) ≤ 1 :=
      fun item hitem => by
        rw [← holders_cons]
        exact hone item hitem
    refine List.pairwise_cons.mpr ⟨fun t ht item hitem hitem' => ?_,
      ih hrest fun item hitem => Nat.le_trans (Nat.le_add_right _ _) (hcons item hitem)⟩
    -- a shared item would be held twice
    have htwice := hcons item (h.mem_items hs hitem)
    have hpos := holders_pos.mpr ⟨t, ht, hitem'⟩
    rw [if_pos hitem] at htwice
    omega

theorem Declared.nodup_of_apart (h : f.Declared) (hmem : ∀ s ∈ chosen, s ∈ f.subsets)
    (hapart : chosen.Pairwise Subset.Apart) : (chosen.map Subset.items).Nodup := by
  refine List.pairwise_map.mpr (hapart.imp_of_mem fun {s t} hs _ hst heq => ?_)
  -- no subset is empty, so it would share an item with itself
  obtain ⟨item, hitem⟩ := List.exists_mem_of_ne_nil _ (h.ne_nil s (hmem s hs))
  exact hst item hitem (heq ▸ hitem)

theorem Declared.nameOf?_choice (h : f.Declared) (hs : s ∈ f.subsets) :
    ∃ t ∈ f.subsets, f.nameOf? s.choice = some t.name ∧ t.items = s.items := by
  obtain ⟨t, ht, hfound, hitems⟩ := exists_subsetOf? hs
  exact ⟨t, ht, by simp [nameOf?, Subset.choice, h.select?_items hs, hfound], hitems⟩

theorem Declared.nodup_nameOf? (h : f.Declared) (hmem : ∀ s ∈ chosen, s ∈ f.subsets)
    (hapart : chosen.Pairwise Subset.Apart) :
    ((chosen.map Subset.choice).map f.nameOf?).Nodup := by
  have hitems := List.pairwise_map.mp (h.nodup_of_apart hmem hapart)
  rw [List.map_map]
  refine List.pairwise_map.mpr (hitems.imp_of_mem fun {s t} hs ht hne heq => hne ?_)
  obtain ⟨s', hs', hname, hsame⟩ := h.nameOf?_choice (hmem s hs)
  obtain ⟨t', ht', hname', hsame'⟩ := h.nameOf?_choice (hmem t ht)
  -- no two declared subsets have the same name
  have hnames : s'.name = t'.name := Option.some.inj (hname.symm.trans (heq.trans hname'))
  rw [← hsame, ← hsame', List.inj_on_of_nodup_map h.nodup_names hs' ht' hnames]

/-- A partition with some of the subsets put first. -/
theorem IsPartition.split {family first : List Subset} (h : f.IsPartition family)
    (hdeclared : f.Declared) (hfirst : ∀ s ∈ first, s ∈ family)
    (hapart : first.Pairwise Subset.Apart) :
    ∃ rest, f.IsPartition (first ++ rest) := by
  have hnodup : first.Nodup :=
    (hdeclared.nodup_of_apart (fun s hs => h.mem s (hfirst s hs)) hapart).of_map _
  have hperm : (first ++ family.diff first).Perm family :=
    List.subperm_append_diff_self_of_count_le fun s hs => by
      have hle := List.nodup_iff_count_le_one.mp hnodup s
      have hpos := List.count_pos_iff.mpr (hfirst s hs)
      omega
  refine ⟨family.diff first, fun s hs => h.mem s (hperm.subset hs), fun item hitem => ?_⟩
  rw [hperm.countP_eq]
  exact h.once item hitem

/-! ## The results -/

theorem countP_choices (chosen : List Subset) (item : String) :
    (chosen.map Subset.choice).countP (item ∈ ·.keys) = holders chosen item := by
  rw [List.countP_map]
  rfl

/-- **Solving decides a family whose fixed subsets share no item.** For either rule of branching and
every budget, the search gives an answer. Each move of a solution is the choice of a declared
subset, by all its items, the names are different, and the fixed subsets and those chosen hold every
item exactly once. Without a solution, and without having been aborted, no declared subsets with the
fixed ones among them do. A search without a budget is not aborted. -/
theorem solve_partitions (h : ofDeclaration d = .ok f)
    (hfixed : f.fixed.Pairwise Subset.Apart) (o : Search.Options) :
    ∃ out, Search.solve f o = .ok out ∧
      (out.tally.solved = true →
        (∀ c ∈ out.moves, ∃ s ∈ f.subsets, f.nameOf? c = some s.name ∧ s.items = c.keys) ∧
        (out.moves.map f.nameOf?).Nodup ∧
        ∀ item ∈ f.items,
          f.fixed.countP (item ∈ ·.items) + out.moves.countP (item ∈ ·.keys) = 1) ∧
      (out.tally.solved = false → out.tally.aborted = false →
        ¬ ∃ family, f.IsPartition family ∧ ∀ s ∈ f.fixed, s ∈ family) ∧
      (o.budget = none → out.tally.aborted = false) := by
  obtain ⟨hdeclared, -, -⟩ := declared_of_ofDeclaration h
  have hkept := kept_eq_fixed hfixed
  obtain ⟨out, hsolve, hyes, hno, hbudget⟩ := hdeclared.solve_completes o
  refine ⟨out, hsolve, fun hsolved => ?_, fun hsolved hfinished => ?_, hbudget⟩
  · obtain ⟨chosen, hmoves, hcompletes⟩ := hyes hsolved
    obtain ⟨-, hpartition⟩ := (completes_iff h).mp hcompletes
    have hmem := hcompletes.mem
    have hapart := hdeclared.pairwise_apart hmem fun item hitem =>
      Nat.le_trans (Nat.le_add_left _ _) (Nat.le_of_eq (hcompletes.marked item hitem))
    rw [hmoves]
    refine ⟨fun c hc => ?_, hdeclared.nodup_nameOf? hmem hapart, fun item hitem => ?_⟩
    · obtain ⟨s, hs, rfl⟩ := List.mem_map.mp hc
      exact hdeclared.nameOf?_choice (hmem s hs)
    · rw [countP_choices, holders, ← List.countP_append, ← hkept]
      exact hpartition.once item hitem
  · rintro ⟨family, hpartition, hamong⟩
    obtain ⟨rest, hsplit⟩ := hpartition.split hdeclared hamong hfixed
    exact hno hsolved hfinished
      ⟨rest, (completes_iff h).mpr ⟨unnoticed_of_apart hfixed, hkept ▸ hsplit⟩⟩

/-- One subset is fixed, and of the two others only one fits to it. -/
theorem solve_partitions_fixed :
    ∃ f, ofDeclaration ⟨["A", "B", "C"], [("ab", ["A", "B"]), ("bc", ["B", "C"]), ("c", ["C"])],
        ["ab"]⟩ = .ok f ∧ f.fixed.Pairwise Subset.Apart ∧
      ∃ out, Search.solve f {} = .ok out ∧ ∀ item ∈ f.items,
        f.fixed.countP (item ∈ ·.items) + out.moves.countP (item ∈ ·.keys) = 1 := by
  obtain ⟨f, hdeclared, hfixed, hrun⟩ : ∃ f, ofDeclaration ⟨["A", "B", "C"],
      [("ab", ["A", "B"]), ("bc", ["B", "C"]), ("c", ["C"])], ["ab"]⟩ = .ok f ∧
      f.fixed.Pairwise Subset.Apart ∧ (Search.solve f {}).toOption.any (·.tally.solved) = true :=
    ⟨_, rfl, by decide +kernel, by decide +kernel⟩
  obtain ⟨out, hsolve, hsolved, -, -⟩ := solve_partitions hdeclared hfixed {}
  rw [hsolve] at hrun
  exact ⟨f, hdeclared, hfixed, out, hsolve, (hsolved hrun).2.2⟩

/-- **Fixed subsets that share items** do not keep a family from being solved. One that shares an
item with those kept before it is left out, and the search decides whether those kept are part of a
partition. What was left out counts only if it has an item that none of those kept has; then there
is no solution. -/
theorem solve_kept (h : ofDeclaration d = .ok f) (o : Search.Options) :
    ∃ out, Search.solve f o = .ok out ∧
      (out.tally.solved = true → f.Unnoticed ∧
        ∃ chosen, out.moves = chosen.map Subset.choice ∧ f.IsPartition (f.kept ++ chosen)) ∧
      (out.tally.solved = false → out.tally.aborted = false →
        ¬ (f.Unnoticed ∧ ∃ chosen, f.IsPartition (f.kept ++ chosen))) ∧
      (o.budget = none → out.tally.aborted = false) := by
  obtain ⟨hdeclared, -, -⟩ := declared_of_ofDeclaration h
  obtain ⟨out, hsolve, hyes, hno, hbudget⟩ := hdeclared.solve_completes o
  refine ⟨out, hsolve, fun hsolved => ?_, fun hsolved hfinished => ?_, hbudget⟩
  · obtain ⟨chosen, hmoves, hcompletes⟩ := hyes hsolved
    obtain ⟨hunnoticed, hpartition⟩ := (completes_iff h).mp hcompletes
    exact ⟨hunnoticed, chosen, hmoves, hpartition⟩
  · rintro ⟨hunnoticed, chosen, hpartition⟩
    exact hno hsolved hfinished ⟨chosen, (completes_iff h).mpr ⟨hunnoticed, hpartition⟩⟩

/-- Of two fixed subsets, the second is within the first and is left out. -/
theorem solve_kept_within :
    ∃ f, ofDeclaration ⟨["A", "B"], [("ab", ["A", "B"]), ("b", ["B"])], ["ab", "b"]⟩ = .ok f ∧
      ∃ out, Search.solve f {} = .ok out ∧ f.Unnoticed ∧
        ∃ chosen, f.IsPartition (f.kept ++ chosen) := by
  obtain ⟨f, hdeclared, hrun⟩ :
      ∃ f, ofDeclaration ⟨["A", "B"], [("ab", ["A", "B"]), ("b", ["B"])], ["ab", "b"]⟩ = .ok f ∧
        (Search.solve f {}).toOption.any (·.tally.solved) = true :=
    ⟨_, rfl, by decide +kernel⟩
  obtain ⟨out, hsolve, hsolved, -, -⟩ := solve_kept hdeclared {}
  rw [hsolve] at hrun
  obtain ⟨hunnoticed, chosen, -, hpartition⟩ := hsolved hrun
  exact ⟨f, hdeclared, out, hsolve, hunnoticed, chosen, hpartition⟩

/-- Two different fixed subsets share an item, and the family is solved all the same. -/
theorem exists_overlap_and_solved :
    ∃ f, ofDeclaration ⟨["A", "B"], [("ab", ["A", "B"]), ("b", ["B"])], ["ab", "b"]⟩ = .ok f ∧
      (∃ s ∈ f.fixed, ∃ t ∈ f.fixed, s ≠ t ∧ ¬ s.Apart t) ∧
      (Search.solve f {}).toOption.any (·.tally.solved) = true :=
  ⟨_, rfl, by decide +kernel, by decide +kernel⟩

end Family

end ExactCover
