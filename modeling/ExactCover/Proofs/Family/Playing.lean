import ExactCover.Proofs.Family.Declared
import Mathlib.Data.List.Forall2

/-!
# Choosing subsets

A choice is accepted if it means a declared subset none of whose items is covered yet, and then its
items are covered. So what matters about some choices is how many of them hold an item: the rules
accept them, in whatever order, as long as no item is held twice or held and covered before.

* **`Family.holders`**, **`Family.marked`**: how many of some subsets hold an item, and whether it
  is covered already, as a number.
* **`Family.Played`**: what accepted choices do, and **`Family.played_of_replay`**.
* **`Family.replay_of_fits`**: choices that hold no item twice are accepted.
* **`Family.isSolvedBy_iff`**: choices solve a family if every item is held or covered exactly once.
* **`Family.kept`**: the fixed subsets that are chosen from the start. A fixed subset that shares an
  item with one chosen before it is refused.
-/

namespace ExactCover

namespace Family

variable {f f' f'' : Family} {s : Subset} {chosen chosen' : List Subset} {item : String}

/-! ## Counting -/

/-- How many of some subsets hold an item. -/
def holders (chosen : List Subset) (item : String) : Nat := chosen.countP (item ∈ ·.items)

/-- One if the item is covered, and zero if it is not. -/
def marked (f : Family) (item : String) : Nat := (f.isCovered item).toNat

@[simp] theorem holders_nil : holders [] item = 0 := rfl

/-- Each subset holds an item once or not at all. -/
theorem holders_cons :
    holders (s :: chosen) item = holders chosen item + if item ∈ s.items then 1 else 0 := by
  simp [holders, List.countP_cons]

@[simp] theorem holders_append :
    holders (chosen ++ chosen') item = holders chosen item + holders chosen' item := by
  simp [holders]

/-- An item has a holder if one of the subsets has it. -/
theorem holders_pos : 0 < holders chosen item ↔ ∃ s ∈ chosen, item ∈ s.items := by
  simp [holders, List.countP_pos_iff]

/-- What the subsets are called does not matter. -/
theorem holders_congr (h : chosen.map Subset.items = chosen'.map Subset.items) :
    holders chosen item = holders chosen' item := by
  have hmap : ∀ l : List Subset, holders l item = (l.map Subset.items).countP (item ∈ ·) :=
    fun l => by
      rw [List.countP_map]
      rfl
  rw [hmap, hmap, h]

theorem marked_eq_zero : f.marked item = 0 ↔ f.isCovered item = false := by
  cases h : f.isCovered item <;> simp [marked, h]

theorem marked_eq_one : f.marked item = 1 ↔ f.isCovered item = true := by
  cases h : f.isCovered item <;> simp [marked, h]

/-- Only items can be covered, since a mark belongs to one. -/
theorem mem_items_of_isCovered (h : f.isCovered item = true) : item ∈ f.items := by
  obtain ⟨mark, hmark, hcovered⟩ := List.any_eq_true.mp h
  obtain ⟨-, rfl⟩ : mark.2 = true ∧ mark.1 = item := by simpa using hcovered
  exact List.mem_map_of_mem hmark

/-! ## One choice -/

theorem Declared.mem_items (h : f.Declared) (hs : s ∈ f.subsets) (hitem : item ∈ s.items) :
    item ∈ f.items := by
  rw [← h.ordered s hs] at hitem
  exact (List.mem_filter.mp hitem).1

/-- The items of a declared subset are in the order of the family already, so nothing changes when
they are selected again. -/
theorem Declared.select?_items (h : f.Declared) (hs : s ∈ f.subsets) :
    f.select? s.items = some s.items := by
  rw [select?_eq, if_pos fun key hkey => h.mem_items hs hkey, h.ordered s hs]

/-- A list of keys selects items if all of them are items, and then the ones that it names, in the
order of the family. -/
theorem select?_eq_some_iff {keys items : List String} : f.select? keys = some items ↔
    (∀ key ∈ keys, key ∈ f.items) ∧ f.items.filter (· ∈ keys) = items := by
  rw [select?_eq, Option.ite_none_right_eq_some, Option.some.injEq]

/-- What is selected is what was asked for. -/
theorem mem_of_select? {keys items : List String} (h : f.select? keys = some items) :
    item ∈ items ↔ item ∈ keys := by
  obtain ⟨hkeys, rfl⟩ := select?_eq_some_iff.mp h
  rw [List.mem_filter, decide_eq_true_eq]
  exact and_iff_right_of_imp (hkeys item)

/-- What is covered does not matter to what keys mean. -/
theorem select?_congr (h : f'.items = f.items) (keys : List String) :
    f'.select? keys = f.select? keys := by
  rw [select?_eq, select?_eq, h]

/-- **What an accepted choice has checked,** and what it changes. -/
theorem play?_eq_some {c : Choice} (h : f.play? c = some f') :
    ∃ s ∈ f.subsets, f.select? c.keys = some s.items ∧
      (∀ item ∈ s.items, f.isCovered item = false) ∧ f' = f.mark s.items := by
  obtain ⟨items, hselect, h⟩ := Option.bind_eq_some_iff.mp h
  obtain ⟨s, hs, h⟩ := Option.bind_eq_some_iff.mp h
  split_ifs at h with hfree
  have hitems : s.items = items := by simpa using List.find?_some hs
  subst hitems
  exact ⟨s, List.mem_of_find?_eq_some hs, hselect, by simpa using hfree, (Option.some.inj h).symm⟩

/-- A declared subset is found by its items, or another one with the same items that is declared
before it. -/
theorem exists_subsetOf? (hs : s ∈ f.subsets) :
    ∃ t ∈ f.subsets, f.subsetOf? s.items = some t ∧ t.items = s.items := by
  have hfound : (f.subsetOf? s.items).isSome := List.find?_isSome.mpr ⟨s, hs, by simp⟩
  obtain ⟨t, ht⟩ := Option.isSome_iff_exists.mp hfound
  exact ⟨t, List.mem_of_find?_eq_some ht, ht, by simpa using List.find?_some ht⟩

/-- A declared subset whose items are all free is accepted, and marks them. -/
theorem Declared.play?_choice (h : f.Declared) (hs : s ∈ f.subsets)
    (hfree : ∀ item ∈ s.items, f.isCovered item = false) :
    f.play? s.choice = some (f.mark s.items) := by
  obtain ⟨other, -, hother, -⟩ := exists_subsetOf? hs
  simpa [play?, Subset.choice, h.select?_items hs, hother] using hfree

/-- If one of its items is covered, it is refused. -/
theorem Declared.play?_choice_eq_none (h : f.Declared) (hs : s ∈ f.subsets)
    (hitem : item ∈ s.items) (hcovered : f.isCovered item = true) : f.play? s.choice = none := by
  refine Option.eq_none_iff_forall_ne_some.mpr fun f' hplay => ?_
  obtain ⟨other, -, hselect, hfree, -⟩ := play?_eq_some hplay
  rw [show s.choice.keys = s.items from rfl, h.select?_items hs, Option.some.injEq] at hselect
  rw [hfree item (hselect ▸ hitem)] at hcovered
  cases hcovered

/-! ## Several choices -/

/-- What it does to choose some subsets, one after the other. -/
structure Played (f : Family) (chosen : List Subset) (f' : Family) : Prop where
  items : f'.items = f.items
  subsets : f'.subsets = f.subsets
  fixed : f'.fixed = f.fixed
  mem : ∀ s ∈ chosen, s ∈ f.subsets
  /-- Each subset covers its items, which were not covered before. -/
  marked : ∀ item ∈ f.items, f'.marked item = f.marked item + holders chosen item

/-- Playing does not change what is declared. -/
theorem Played.declared (h : Played f chosen f') (hf : f.Declared) : f'.Declared :=
  hf.of_eq h.items h.subsets h.fixed

theorem Played.refl (f : Family) : Played f [] f :=
  ⟨rfl, rfl, rfl, by simp, by simp⟩

/-- Subsets that are played after others add to what these cover. -/
theorem Played.trans (h : Played f chosen f') (h' : Played f' chosen' f'') :
    Played f (chosen ++ chosen') f'' where
  items := h'.items.trans h.items
  subsets := h'.subsets.trans h.subsets
  fixed := h'.fixed.trans h.fixed
  mem s hs := by
    rcases List.mem_append.mp hs with hs | hs
    · exact h.mem s hs
    · exact h.subsets ▸ h'.mem s hs
  marked item hitem := by
    rw [h'.marked item (h.items ▸ hitem), h.marked item hitem, holders_append, Nat.add_assoc]

/-- One subset is played: its items get one more holder, and the others keep theirs. -/
theorem Played.mark (hs : s ∈ f.subsets) (hfree : ∀ item ∈ s.items, f.isCovered item = false) :
    Played f [s] (f.mark s.items) where
  items := items_mark f s.items
  subsets := rfl
  fixed := rfl
  mem := by simpa using hs
  marked item hitem := by
    rw [Family.marked, Family.marked, isCovered_mark, holders_cons]
    by_cases hmem : item ∈ s.items
    · simp [hmem, hitem, hfree item hmem]
    · simp [hmem]

/-- **Accepted choices mean subsets that hold different items, none of them covered before.**
Induction on the choices. -/
theorem played_of_replay {moves : List Choice} (h : Puzzle.replay? f moves = some f') :
    ∃ chosen, List.Forall₂ (fun c s => f.select? c.keys = some s.items) moves chosen ∧
      Played f chosen f' := by
  induction moves generalizing f with
  | nil =>
    obtain rfl : f = f' := by simpa [Puzzle.replay?] using h
    exact ⟨[], .nil, .refl f⟩
  | cons c moves ih =>
    rw [Puzzle.replay?, List.foldlM_cons] at h
    obtain ⟨f₁, hplay, hrest⟩ := Option.bind_eq_some_iff.mp h
    obtain ⟨s, hs, hselect, hfree, rfl⟩ := play?_eq_some hplay
    obtain ⟨chosen, hmoves, hplayed⟩ := ih hrest
    refine ⟨s :: chosen, .cons hselect (hmoves.imp fun c s hc => ?_),
      (Played.mark hs hfree).trans hplayed⟩
    rwa [select?_congr (items_mark f _)] at hc

/-- The choices of declared subsets mean these subsets, or others with the same items. -/
theorem Declared.map_items_eq (h : f.Declared) (hmem : ∀ s ∈ chosen, s ∈ f.subsets)
    (hmoves : List.Forall₂ (fun c s => f.select? c.keys = some s.items)
      (chosen.map Subset.choice) chosen') : chosen'.map Subset.items = chosen.map Subset.items := by
  induction chosen generalizing chosen' with
  | nil =>
    cases hmoves
    rfl
  | cons s chosen ih =>
    obtain ⟨hs, hrest⟩ := List.forall_mem_cons.mp hmem
    cases hmoves with
    | @cons _ s' _ chosen' hselect hmoves =>
      rw [show s.choice.keys = s.items from rfl, h.select?_items hs, Option.some.injEq] at hselect
      rw [List.map_cons, List.map_cons, ih hrest hmoves, hselect]

/-- **Subsets that hold no item twice, and none that is covered, can be chosen one after the
other.** Induction on the subsets. -/
theorem Declared.replay_of_fits (h : f.Declared) (hmem : ∀ s ∈ chosen, s ∈ f.subsets)
    (hfits : ∀ item ∈ f.items, f.marked item + holders chosen item ≤ 1) :
    ∃ f', Puzzle.replay? f (chosen.map Subset.choice) = some f' ∧ Played f chosen f' := by
  induction chosen generalizing f with
  | nil => exact ⟨f, rfl, .refl f⟩
  | cons s chosen ih =>
    obtain ⟨hs, hrest⟩ := List.forall_mem_cons.mp hmem
    have hfree : ∀ item ∈ s.items, f.isCovered item = false := fun item hitem => by
      have hfit := hfits item (h.mem_items hs hitem)
      rw [holders_cons, if_pos hitem] at hfit
      exact marked_eq_zero.mp (by omega)
    have hplayed := Played.mark hs hfree
    obtain ⟨f', hreplay, hplayed'⟩ := ih (hplayed.declared h) hrest fun item hitem => by
      have hitem' : item ∈ f.items := hplayed.items ▸ hitem
      have hfit := hfits item hitem'
      rw [holders_cons] at hfit
      rw [hplayed.marked item hitem', holders_cons, holders_nil]
      omega
    refine ⟨f', ?_, hplayed.trans hplayed'⟩
    have hplay : Puzzle.play? f s.choice = some (f.mark s.items) := h.play?_choice hs hfree
    rw [List.map_cons, Puzzle.replay?, List.foldlM_cons, hplay]
    exact hreplay

/-! ## Solved families -/

/-- A family is solved where each of its items is marked. -/
theorem isSolved_iff (hnodup : f.items.Nodup) :
    f.isSolved = true ↔ ∀ item ∈ f.items, f.marked item = 1 := by
  simp only [marked_eq_one, isSolved, isCovered, items, List.all_eq_true, List.any_eq_true,
    List.mem_map, Bool.and_eq_true, beq_iff_eq, forall_exists_index, and_imp,
    forall_apply_eq_imp_iff₂]
  constructor
  · exact fun h mark hmark => ⟨mark, hmark, h mark hmark, rfl⟩
  · intro h mark hmark
    obtain ⟨other, hother, hcovered, hname⟩ := h mark hmark
    -- no other mark is one for the same item
    rwa [← List.inj_on_of_nodup_map hnodup hother hmark hname]

/-- **Choices solve a family if each item is held by one of them, or was covered before, and no item
is both or held twice.** Their order does not matter. -/
theorem Declared.isSolvedBy_iff (h : f.Declared) (hmem : ∀ s ∈ chosen, s ∈ f.subsets) :
    Puzzle.isSolvedBy f (chosen.map Subset.choice) = true ↔
      ∀ item ∈ f.items, f.marked item + holders chosen item = 1 := by
  have hsolved : ∀ {f'}, Played f chosen f' → (f'.isSolved = true ↔
      ∀ item ∈ f.items, f.marked item + holders chosen item = 1) := fun {f'} hplayed => by
    rw [isSolved_iff (hplayed.declared h).nodup_items, hplayed.items]
    exact forall₂_congr fun item hitem => by rw [hplayed.marked item hitem]
  constructor
  · intro hby
    obtain ⟨f', hreplay, hf'⟩ := (Option.any_eq_true _ _).mp hby
    obtain ⟨chosen', hmoves, hplayed⟩ := played_of_replay hreplay
    have hsame : ∀ item, holders chosen' item = holders chosen item := fun _ =>
      holders_congr (h.map_items_eq hmem hmoves)
    refine (hsolved ⟨hplayed.items, hplayed.subsets, hplayed.fixed, hmem, ?_⟩).mp hf'
    exact fun item hitem => hsame item ▸ hplayed.marked item hitem
  · intro honce
    obtain ⟨f', hreplay, hplayed⟩ :=
      h.replay_of_fits hmem fun item hitem => Nat.le_of_eq (honce item hitem)
    rw [Puzzle.isSolvedBy, hreplay]
    exact (hsolved hplayed).mpr honce

/-! ## Fixed subsets -/

/-- Whether two subsets share no item. -/
def Subset.Apart (s t : Subset) : Prop := ∀ item ∈ s.items, item ∉ t.items

instance : DecidableRel Subset.Apart := fun s t =>
  inferInstanceAs (Decidable (∀ item ∈ s.items, item ∉ t.items))

theorem Subset.Apart.symm {s t : Subset} (h : s.Apart t) : t.Apart s :=
  fun item ht hs => h item hs ht

/-- One more subset, unless it shares an item with one of those before it. -/
def keep (kept : List Subset) (s : Subset) : List Subset :=
  if ∀ t ∈ kept, s.Apart t then kept ++ [s] else kept

/-- The fixed subsets that are chosen from the start: each one that shares no item with those chosen
before it. -/
def kept (f : Family) : List Subset := f.fixed.foldl keep []

/-- **What is covered,** if nothing was covered before some subsets were chosen. -/
theorem Played.isCovered_iff (h : Played f chosen f') (hf : f.Declared)
    (hfresh : ∀ item, f.isCovered item = false) :
    f'.isCovered item = true ↔ ∃ s ∈ chosen, item ∈ s.items := by
  by_cases hitem : item ∈ f.items
  · have hmarked := h.marked item hitem
    rw [marked_eq_zero.mpr (hfresh item), Nat.zero_add] at hmarked
    rw [← holders_pos, ← hmarked, ← marked_eq_one]
    have hle : f'.marked item ≤ 1 := Bool.toNat_le _
    omega
  · constructor
    · intro hcovered
      exact absurd (h.items ▸ mem_items_of_isCovered hcovered) hitem
    · rintro ⟨s, hs, hmem⟩
      exact absurd (hf.mem_items (h.mem s hs) hmem) hitem

/-- Where nothing was covered at first, a subset can be played next if it shares no item with those
played before. The rules look at marks, this looks at the subsets. -/
theorem Played.free_iff_apart (h : Played f chosen f') (hf : f.Declared)
    (hfresh : ∀ item, f.isCovered item = false) :
    (∀ item ∈ s.items, f'.isCovered item = false) ↔ ∀ t ∈ chosen, s.Apart t := by
  simp only [← Bool.not_eq_true, h.isCovered_iff hf hfresh]
  constructor
  · exact fun hfree t ht item hitem hmem => hfree item hitem ⟨t, ht, hmem⟩
  · exact fun hapart item hitem ⟨t, ht, hmem⟩ => hapart t ht item hitem hmem

/-- A declared subset is accepted if it shares no item with those chosen before it. -/
theorem Played.play?_choice (h : Played f chosen f') (hf : f.Declared)
    (hfresh : ∀ item, f.isCovered item = false) (hs : s ∈ f.subsets) :
    f'.play? s.choice =
      if ∀ t ∈ chosen, s.Apart t then some (f'.mark s.items) else none := by
  have hs' : s ∈ f'.subsets := h.subsets.symm ▸ hs
  split_ifs with hapart
  · exact (h.declared hf).play?_choice hs' ((h.free_iff_apart hf hfresh).mpr hapart)
  · rw [← h.free_iff_apart hf hfresh] at hapart
    push Not at hapart
    obtain ⟨item, hitem, hcovered⟩ := hapart
    exact (h.declared hf).play?_choice_eq_none hs' hitem (by simpa using hcovered)

/-- **A fixed subset is chosen if it shares no item with those chosen before it,** and else nothing
happens. -/
theorem Played.keep {kept : List Subset} (h : Played f kept f') (hf : f.Declared)
    (hfresh : ∀ item, f.isCovered item = false) (hs : s ∈ f.subsets) :
    Played f (Family.keep kept s) (Puzzle.playOrSkip f' s.choice) := by
  have hplay : Puzzle.play? f' s.choice = _ := h.play?_choice hf hfresh hs
  unfold Family.keep Puzzle.playOrSkip
  rw [hplay]
  split_ifs with hapart
  · exact h.trans (.mark (h.subsets.symm ▸ hs) ((h.free_iff_apart hf hfresh).mpr hapart))
  · exact h

/-- Playing fixed subsets one after the other, and passing over those that the rules refuse, plays
the ones that are kept. Induction on the subsets still to be played. -/
theorem Played.keepAll {kept rest : List Subset} (h : Played f kept f') (hf : f.Declared)
    (hfresh : ∀ item, f.isCovered item = false) (hrest : ∀ s ∈ rest, s ∈ f.subsets) :
    Played f (rest.foldl Family.keep kept)
      ((rest.map Subset.choice).foldl Puzzle.playOrSkip f') := by
  induction rest generalizing kept f' with
  | nil => exact h
  | cons s rest ih =>
    obtain ⟨hs, hrest⟩ := List.forall_mem_cons.mp hrest
    exact ih (h.keep hf hfresh hs) hrest

/-- **In a family that was declared, the items of the fixed subsets that were kept are covered, and
no others.** -/
theorem declared_of_ofDeclaration {d : Declaration} (h : ofDeclaration d = .ok f) :
    f.Declared ∧ (∀ s ∈ f.kept, s ∈ f.subsets) ∧
      ∀ item ∈ f.items, f.marked item = holders f.kept item := by
  obtain ⟨fresh, hdeclared, hfresh, rfl⟩ := ofDeclaration_eq_ok h
  have hplayed := (Played.refl fresh).keepAll hdeclared hfresh hdeclared.fixed
  have hkept : (fresh.initial.foldl Puzzle.playOrSkip fresh).kept = fresh.kept := by
    rw [kept, kept, initial, hplayed.fixed]
  refine ⟨hplayed.declared hdeclared, fun s hs => ?_, fun item hitem => ?_⟩
  · rw [hkept] at hs
    exact hplayed.subsets.symm ▸ hplayed.mem s hs
  · have hmarked := hplayed.marked item (hplayed.items ▸ hitem)
    rw [marked_eq_zero.mpr (hfresh item), Nat.zero_add] at hmarked
    rw [hkept]
    exact hmarked

theorem mem_keep {kept : List Subset} {t : Subset} (h : t ∈ keep kept s) : t ∈ kept ∨ t = s := by
  unfold keep at h
  split_ifs at h
  · simpa using h
  · exact Or.inl h

theorem mem_foldl_keep {kept rest : List Subset} (h : s ∈ rest.foldl keep kept) :
    s ∈ kept ∨ s ∈ rest := by
  induction rest generalizing kept with
  | nil => exact Or.inl h
  | cons t rest ih =>
    rcases ih h with hs | hs
    · rcases mem_keep hs with hs | rfl
      · exact Or.inl hs
      · exact Or.inr List.mem_cons_self
    · exact Or.inr (List.mem_cons_of_mem t hs)

/-- What is kept of the fixed subsets was fixed. -/
theorem kept_subset (h : s ∈ f.kept) : s ∈ f.fixed :=
  (mem_foldl_keep h).resolve_left List.not_mem_nil

/-- Subsets no two of which share an item are all kept. -/
theorem foldl_keep {kept rest : List Subset} (h : (kept ++ rest).Pairwise Subset.Apart) :
    rest.foldl keep kept = kept ++ rest := by
  induction rest generalizing kept with
  | nil => simp
  | cons s rest ih =>
    have hapart : ∀ t ∈ kept, s.Apart t := fun t ht =>
      ((List.pairwise_append.mp h).2.2 t ht s List.mem_cons_self).symm
    have hsplit : kept ++ s :: rest = (kept ++ [s]) ++ rest := by simp
    rw [List.foldl_cons, keep, if_pos hapart, hsplit]
    exact ih (hsplit ▸ h)

theorem kept_eq_fixed (h : f.fixed.Pairwise Subset.Apart) : f.kept = f.fixed := foldl_keep h

end Family

end ExactCover
