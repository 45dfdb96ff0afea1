import ExactCover.Proofs.Steps
import ExactCover.Proofs.Text.Lines

/-!
# The first line that is refused

A reader goes through the lines that it keeps one by one, and stops at the first one that it cannot
read. So it succeeds exactly if it can read every one of them, and an error is that of a line before
which all others were read. The number of that line counts all lines, those that are not kept too.

* **`Text.exists_of_keptLines_eq`**: a line that is kept, among all lines.
* **`Text.mapM_keptLines_eq_error_iff`**: the result.
-/

namespace ExactCover

namespace Text

/-! ## Lines -/

/-- Lines can be read in two goes, if the numbers go on where they stopped. -/
theorem keptLines_append (keep : List Char → Bool) (number : Nat) (ls ls' : List (List Char)) :
    keptLines keep number (ls ++ ls') =
      keptLines keep number ls ++ keptLines keep (number + ls.length) ls' := by
  simp only [keptLines_eq, List.zipIdx_append, List.map_append, List.filter_append]

/-- Which lines are kept does not depend on their numbers. -/
theorem map_snd_keptLines (keep : List Char → Bool) (number : Nat) (ls : List (List Char)) :
    (keptLines keep number ls).map Prod.snd = (ls.map trim).filter keep := by
  induction ls generalizing number with
  | nil => rfl
  | cons line ls ih =>
    rw [keptLines, List.map_cons, List.filter_cons]
    split <;> simp [ih]

/-- What holds of all lines that are kept. -/
theorem forall_mem_keptLines {keep : List Char → Bool} {number : Nat} {ls : List (List Char)}
    {P : List Char → Prop} : (∀ kept ∈ keptLines keep number ls, P kept.2) ↔
      ∀ line ∈ ls, keep (trim line) = true → P (trim line) := by
  rw [← List.forall_mem_map (f := Prod.snd), map_snd_keptLines]
  simp

/-- The lines of a text that are kept, with the numbers that they have in the text. -/
theorem keptLines_lines (keep : List Char → Bool) (cs : List Char) :
    keptLines keep 1 (lines cs) = ((numberedLines cs).map fun (number, line) =>
      (number, trim line)).filter fun (_, line) => keep line := by
  rw [keptLines_eq, numberedLines, List.map_map]
  rfl

/-- A line that is kept is one of the lines, and its number says how many lines come before it. -/
theorem exists_of_keptLines_eq {keep : List Char → Bool} {number : Nat} {ls : List (List Char)}
    {before after : List (Nat × List Char)} {kept : Nat × List Char}
    (h : keptLines keep number ls = before ++ kept :: after) :
    ∃ front line back, ls = front ++ line :: back ∧ keptLines keep number front = before ∧
      keep (trim line) = true ∧ kept = (number + front.length, trim line) := by
  induction ls generalizing number before with
  | nil => simp [keptLines] at h
  | cons line ls ih =>
    -- the kept line is this one, or it comes later and this one may be kept too
    have hcases : (before = [] ∧ keep (trim line) = true ∧ kept = (number, trim line)) ∨
        ∃ before', keptLines keep number [line] ++ before' = before ∧
          keptLines keep (number + 1) ls = before' ++ kept :: after := by
      rw [keptLines] at h
      split at h
      · next hkeep =>
        rcases List.cons_eq_append_iff.mp h with ⟨rfl, hcons⟩ | ⟨before', rfl, hrest⟩
        · exact .inl ⟨rfl, hkeep, (List.cons.inj hcons).1⟩
        · exact .inr ⟨before', by simp [keptLines, hkeep], hrest⟩
      · next hkeep => exact .inr ⟨before, by simp [keptLines, hkeep], h⟩
    rcases hcases with ⟨rfl, hkeep, rfl⟩ | ⟨before', rfl, hrest⟩
    · exact ⟨[], line, ls, rfl, rfl, hkeep, rfl⟩
    · obtain ⟨front, line', back, rfl, rfl, hkeep, rfl⟩ := ih hrest
      refine ⟨line :: front, line', back, rfl, keptLines_append keep number [line] front, hkeep, ?_⟩
      rw [List.length_cons, Nat.add_right_comm, Nat.add_assoc]

/-- **The first line that is refused.** Where lines are read one by one, the error is that of a line
that is kept, and all lines kept before it are accepted. -/
theorem mapM_keptLines_eq_error_iff {ε α : Type} {keep : List Char → Bool}
    {f : Nat × List Char → Except ε α} {number : Nat} {ls : List (List Char)} {e : ε} :
    (keptLines keep number ls).mapM f = .error e ↔ ∃ before line after,
      ls = before ++ line :: after ∧ (∀ kept ∈ keptLines keep number before, ∃ x, f kept = .ok x) ∧
      keep (trim line) = true ∧ f (number + before.length, trim line) = .error e := by
  rw [mapM_eq_error_iff]
  constructor
  · rintro ⟨before, kept, after, hkept, hbefore, herror⟩
    obtain ⟨front, line, back, rfl, rfl, hkeep, rfl⟩ := exists_of_keptLines_eq hkept
    exact ⟨front, line, back, rfl, hbefore, hkeep, herror⟩
  · rintro ⟨before, line, after, rfl, hbefore, hkeep, herror⟩
    have hkept := keptLines_append keep number before (line :: after)
    rw [keptLines, if_pos hkeep] at hkept
    exact ⟨_, _, _, hkept, hbefore, herror⟩

end Text

end ExactCover
