import ExactCover.Proofs.Family.Playing
import Mathlib.Data.List.Destutter
import Mathlib.Data.List.Sort

/-!
# Items by their places

A family keeps a mark beside the name of each item, and a subset lists the names of its items. A
table of flags does with less: the name of an item is looked up once, and from then on the item is
the number of its place. The places of some keys are sorted and repeats are dropped, so that the
keys of one subset give one list of places however they are written, and two such lists are simply
compared.

* **`Family.places?`**: the places of some keys, and **`Family.places?_eq`**.
* **`Family.flags_mark`**: to mark items is to raise the flags at their places.
* **`Family.playByPlaces`**: a choice that is played on places and flags, and
  **`Family.Declared.map_flags_play?`**: it comes to the same.
-/

namespace ExactCover

namespace Family

variable {f : Family} {items keys : List String} {item : String}

/-- The places of some keys, ascending and each of them once, if all keys are items. -/
def places? (items keys : List String) : Option (List Nat) :=
  (keys.mapM (items.idxOf? ·)).map fun places => places.mergeSort.destutter (· ≠ ·)

/-- The flags with those at some places raised. -/
def raise (flags : List Bool) (places : List Nat) : List Bool :=
  places.foldl (fun flags i => flags.set i true) flags

/-- The flags after a choice, or none if it is refused: its keys must be items, their places those
of a declared subset, and no flag raised at any of them. -/
def playByPlaces (f : Family) (c : Choice) : Option (List Bool) :=
  match places? f.items c.keys with
  | none => none
  | some places =>
    let declared := f.subsets.any fun s => s.items.map (f.items.idxOf ·) = places
    if !declared || places.any (f.flags.getD · false) then none else some (raise f.flags places)

/-! ## Places -/

theorem idxOf?_of_mem (h : item ∈ items) : items.idxOf? item = some (items.idxOf item) := by
  obtain ⟨i, hi⟩ := Option.isSome_iff_exists.mp (List.isSome_idxOf?.mpr h)
  rw [List.idxOf_eq_getD_idxOf?, hi]
  rfl

theorem mapM_idxOf? (items keys : List String) : keys.mapM (items.idxOf? ·) =
    if ∀ key ∈ keys, key ∈ items then some (keys.map (items.idxOf ·)) else none := by
  induction keys with
  | nil => simp
  | cons key keys ih =>
    rw [List.mapM_cons, ih]
    by_cases hkey : key ∈ items
    · rw [idxOf?_of_mem hkey]
      simp only [List.forall_mem_cons, hkey, true_and]
      split_ifs <;> rfl
    · rw [List.idxOf?_eq_none_iff.mpr hkey]
      simp [hkey]

/-- Items stand in the order of their places. -/
theorem pairwise_idxOf (h : items.Nodup) :
    items.Pairwise fun a b => items.idxOf a < items.idxOf b := by
  rw [List.pairwise_iff_getElem]
  intro i j hi hj hlt
  rwa [h.idxOf_getElem, h.idxOf_getElem]

/-- **The places of some keys are those of the items that they name,** in the order of the items. -/
theorem places?_eq (h : items.Nodup) (keys : List String) : places? items keys =
    if ∀ key ∈ keys, key ∈ items then some ((items.filter (· ∈ keys)).map (items.idxOf ·))
    else none := by
  unfold places?
  rw [mapM_idxOf?]
  split_ifs with hkeys
  swap
  · rfl
  let sorted := (keys.map (items.idxOf ·)).mergeSort
  let wanted := (items.filter (· ∈ keys)).map (items.idxOf ·)
  show some (sorted.destutter (· ≠ ·)) = some wanted
  have hsorted : sorted.Pairwise (· ≤ ·) := by
    have hle := @List.pairwise_mergeSort Nat (fun i j => i ≤ j)
      (by simpa using fun _ _ _ => Nat.le_trans) (by simpa using Nat.le_total)
      (keys.map (items.idxOf ·))
    simpa using hle
  have hwanted : wanted.Pairwise (· < ·) := by
    rw [List.pairwise_map]
    exact (pairwise_idxOf h).filter _
  -- two ascending lists without repeats are equal if they have the same elements
  have hmem : ∀ i, i ∈ sorted.dedup ↔ i ∈ wanted := by
    intro i
    simp only [sorted, wanted, List.mem_dedup, List.mem_mergeSort, List.mem_map, List.mem_filter,
      decide_eq_true_eq]
    exact exists_congr fun key => and_congr_left fun _ => (and_iff_right_of_imp (hkeys key)).symm
  have hperm : sorted.dedup.Perm wanted :=
    (List.perm_ext_iff_of_nodup (List.nodup_dedup _) (hwanted.imp Nat.ne_of_lt)).mpr hmem
  rw [hsorted.destutter_eq_dedup]
  exact congrArg some (hperm.eq_of_pairwise (fun _ _ _ _ => Nat.le_antisymm)
    (hsorted.sublist (List.dedup_sublist _)) (hwanted.imp Nat.le_of_lt))

/-! ## Flags -/

theorem getElem?_raise (flags : List Bool) (places : List Nat) (i : Nat) :
    (raise flags places)[i]? = flags[i]?.map (· || decide (i ∈ places)) := by
  induction places generalizing flags with
  | nil => simp [raise]
  | cons place places ih =>
    show (raise (flags.set place true) places)[i]? = _
    rw [ih, List.getElem?_set]
    by_cases heq : place = i
    · subst heq
      by_cases hlt : place < flags.length
      · simp [hlt]
      · simp [hlt]
    · simp [heq, Ne.symm heq]

theorem isCovered_getElem (h : f.items.Nodup) {i : Nat} (hi : i < f.items.length) :
    f.isCovered f.items[i] = f.flags.getD i false := by
  have hi' : i < f.marks.length := by simpa [items] using hi
  have hitem : f.items[i] = f.marks[i].1 := by simp [Family.items]
  have hflag : f.flags.getD i false = f.marks[i].2 := by simp [flags, hi']
  rw [hflag, hitem, Bool.eq_iff_iff]
  unfold isCovered
  rw [List.any_eq_true]
  constructor
  · rintro ⟨mark, hmark, hcovered⟩
    obtain ⟨hcovered, hname⟩ : mark.2 = true ∧ mark.1 = f.marks[i].1 := by simpa using hcovered
    rwa [← List.inj_on_of_nodup_map h hmark (List.getElem_mem hi') hname]
  · intro hcovered
    exact ⟨f.marks[i], List.getElem_mem hi', by simp [hcovered]⟩

theorem isCovered_eq_flag (h : f.items.Nodup) (hitem : item ∈ f.items) :
    f.isCovered item = f.flags.getD (f.items.idxOf item) false := by
  have hlt := List.idxOf_lt_length_of_mem hitem
  have hcovered := isCovered_getElem h hlt
  rwa [List.getElem_idxOf hlt] at hcovered

/-- **To mark items is to raise the flags at their places.** -/
theorem flags_mark (h : f.items.Nodup) (chosen : List String) :
    (f.mark chosen).flags = raise f.flags (chosen.map (f.items.idxOf ·)) := by
  refine List.ext_getElem? fun i => ?_
  rw [getElem?_raise]
  simp only [flags, mark, List.map_map, List.getElem?_map, Option.map_map]
  by_cases hi : i < f.marks.length
  · have hi' : i < f.items.length := by simpa [items] using hi
    have hplace : f.marks[i].1 ∈ chosen ↔ i ∈ chosen.map (f.items.idxOf ·) := by
      have hitem : f.items[i] = f.marks[i].1 := by simp [Family.items]
      rw [← hitem, List.mem_map]
      constructor
      · exact fun hmem => ⟨_, hmem, h.idxOf_getElem i hi'⟩
      · rintro ⟨item, hmem, rfl⟩
        rwa [List.getElem_idxOf]
    simp [List.getElem?_eq_getElem hi, hplace]
  · simp [List.getElem?_eq_none (Nat.le_of_not_lt hi)]

/-! ## Playing on places -/

/-- Lists of items are equal if their places are. -/
theorem map_idxOf_eq_iff {l l' : List String} (hl : ∀ item ∈ l, item ∈ items) :
    l.map (items.idxOf ·) = l'.map (items.idxOf ·) ↔ l = l' := by
  refine ⟨fun heq => ?_, fun heq => heq ▸ rfl⟩
  induction l generalizing l' with
  | nil => exact (List.map_eq_nil_iff.mp heq.symm).symm
  | cons item l ih =>
    obtain ⟨hitem, hl⟩ := List.forall_mem_cons.mp hl
    cases l' with
    | nil => cases heq
    | cons item' l' =>
      obtain ⟨hhead, htail⟩ := List.cons.inj heq
      rw [(List.idxOf_inj hitem).mp hhead, ih hl htail]

/-- **A choice comes to the same, played on places and flags.** -/
theorem Declared.map_flags_play? (h : f.Declared) (c : Choice) :
    (f.play? c).map flags = f.playByPlaces c := by
  unfold play? playByPlaces
  rw [places?_eq h.nodup_items, select?_eq]
  by_cases hkeys : ∀ key ∈ c.keys, key ∈ f.items
  swap
  · rw [if_neg hkeys, if_neg hkeys]
    rfl
  rw [if_pos hkeys, if_pos hkeys]
  let chosen := f.items.filter (· ∈ c.keys)
  have hchosen : ∀ item ∈ chosen, item ∈ f.items := fun item hitem => (List.mem_filter.mp hitem).1
  have hdeclared : (f.subsets.any fun s =>
      s.items.map (f.items.idxOf ·) = chosen.map (f.items.idxOf ·)) =
      (f.subsetOf? chosen).isSome := by
    unfold subsetOf?
    rw [Bool.eq_iff_iff, List.find?_isSome, List.any_eq_true]
    refine exists_congr fun s => and_congr_right fun hs => ?_
    simp [map_idxOf_eq_iff fun item hitem => h.mem_items hs hitem]
  have hcovered : (chosen.map (f.items.idxOf ·)).any (f.flags.getD · false) =
      chosen.any f.isCovered := by
    rw [List.any_map, Bool.eq_iff_iff, List.any_eq_true, List.any_eq_true]
    refine exists_congr fun item => and_congr_right fun hitem => ?_
    rw [isCovered_eq_flag h.nodup_items (hchosen item hitem)]
    rfl
  show (do let _ ← f.subsetOf? chosen; if chosen.any f.isCovered then none else some (f.mark chosen)
    ).map flags = if _ then none else some (raise f.flags (chosen.map (f.items.idxOf ·)))
  rw [hdeclared, hcovered, ← flags_mark h.nodup_items]
  cases f.subsetOf? chosen <;> cases chosen.any f.isCovered <;> rfl

end Family

end ExactCover
