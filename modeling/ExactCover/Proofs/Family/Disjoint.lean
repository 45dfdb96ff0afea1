import ExactCover.Proofs.Family.Decides
import ExactCover.Proofs.Family.Places
import ExactCover.Proofs.Offering

/-!
# Covered once

Any keys may be offered as a choice, in any order, with repeats, and also such as are no items. What
is accepted is a declared subset none of whose items is covered, and its items are covered then. A
family starts from a fresh one that is offered its fixed subsets, and goes on in the same way. So
what is covered at any time is put together from subsets that share no item: the fixed ones that
were accepted, and those that were accepted since.

* **`Family.Declared.isSome_play?_iff`**: which choices are accepted.
* **`Family.Taken`**: a choice is taken, and nothing else changes.
* **`Family.played_fresh`**: a family that was declared is a fresh one that was offered its fixed
  subsets, and those it accepted are the ones that were kept.
* **`Family.offer_disjoint`**: what is true of a family after any choices were offered.
-/

namespace ExactCover

namespace Family

variable {f f' : Family} {d : Declaration} {kept rest : List Subset} {item : String} {c : Choice}

/-! ## One choice -/

/-- **Which choices are accepted.** All keys must be items, some declared subset must have just
these items, and none of them may be covered. -/
theorem Declared.isSome_play?_iff (h : f.Declared) (c : Choice) : (f.play? c).isSome = true ↔
    (∀ key ∈ c.keys, key ∈ f.items) ∧
    (∃ s ∈ f.subsets, ∀ item, item ∈ s.items ↔ item ∈ c.keys) ∧
    ∀ key ∈ c.keys, f.isCovered key = false := by
  constructor
  · intro hplay
    obtain ⟨f', hplay⟩ := Option.isSome_iff_exists.mp hplay
    obtain ⟨s, hs, hselect, hfree, -⟩ := play?_eq_some hplay
    obtain ⟨hkeys, -⟩ := select?_eq_some_iff.mp hselect
    refine ⟨hkeys, ⟨s, hs, fun item => mem_of_select? hselect⟩, fun key hkey => ?_⟩
    exact hfree key ((mem_of_select? hselect).mpr hkey)
  · rintro ⟨hkeys, ⟨s, hs, hitems⟩, hfree⟩
    -- a subset lists its items in the order of the whole, and so does what is selected
    have hordered := h.ordered s hs
    simp only [hitems] at hordered
    have hselect : f.select? c.keys = some s.items := select?_eq_some_iff.mpr ⟨hkeys, hordered⟩
    have hplay := h.play?_choice hs fun item hitem => hfree item ((hitems item).mp hitem)
    unfold play? at hplay ⊢
    rw [hselect]
    rw [show s.choice.keys = s.items from rfl, h.select?_items hs] at hplay
    rw [hplay]
    rfl

/-- The family `f'` is `f` with the items of a choice covered, of which none was covered. -/
structure Taken (f : Family) (c : Choice) (f' : Family) : Prop where
  items : f'.items = f.items
  subsets : f'.subsets = f.subsets
  fixed : f'.fixed = f.fixed
  free : ∀ key ∈ c.keys, f.isCovered key = false
  isCovered : ∀ item, f'.isCovered item = true ↔ f.isCovered item = true ∨ item ∈ c.keys

theorem taken_of_play? (h : f.play? c = some f') : f.Taken c f' := by
  obtain ⟨s, -, hselect, hfree, rfl⟩ := play?_eq_some h
  obtain ⟨hkeys, -⟩ := select?_eq_some_iff.mp hselect
  refine ⟨items_mark f _, rfl, rfl, fun key hkey => ?_, fun item => ?_⟩
  · exact hfree key ((mem_of_select? hselect).mpr hkey)
  · rw [isCovered_mark]
    simp only [Bool.or_eq_true, Bool.and_eq_true, List.contains_iff_mem, mem_of_select? hselect]
    rw [and_iff_right_of_imp (hkeys item)]

/-! ## Fixed subsets -/

/-- The family before any subset was chosen. -/
def fresh (f : Family) : Family := { f with marks := f.items.map (·, false) }

@[simp] theorem isCovered_fresh : f.fresh.isCovered item = false := by simp [fresh, isCovered]

theorem fresh_of_uncovered (h : ∀ item, f.isCovered item = false) : f.fresh = f := by
  have hmarks : f.items.map (·, false) = f.marks := by
    unfold items
    rw [List.map_map]
    refine (List.map_congr_left fun mark hmark => ?_).trans (List.map_id f.marks)
    have hcovered := List.any_eq_false.mp (h mark.1) mark hmark
    have hflag : mark.2 = false := by simpa using hcovered
    exact Prod.ext rfl hflag.symm
  unfold fresh
  rw [hmarks]

theorem Played.fresh_eq {chosen : List Subset} (h : Played f chosen f') : f'.fresh = f.fresh := by
  show (⟨f'.items.map (·, false), f'.subsets, f'.fixed⟩ : Family) = _
  rw [h.items, h.subsets, h.fixed]
  rfl

/-- Fixed subsets are kept where they are accepted. Induction on those that are still to be
offered. -/
theorem Played.accepted_keep (h : Played f kept f') (hf : f.Declared)
    (hfresh : ∀ item, f.isCovered item = false) (hrest : ∀ s ∈ rest, s ∈ f.subsets) :
    ∃ new, rest.foldl Family.keep kept = kept ++ new ∧
      Puzzle.accepted f' (rest.map Subset.choice) = new.map Subset.choice := by
  induction rest generalizing kept f' with
  | nil => exact ⟨[], by simp, rfl⟩
  | cons s rest ih =>
    obtain ⟨hs, hrest⟩ := List.forall_mem_cons.mp hrest
    have hplay : Puzzle.play? f' s.choice = _ := h.play?_choice hf hfresh hs
    have hnext := h.keep hf hfresh hs
    obtain ⟨new, hkept, haccepted⟩ := ih hnext hrest
    rw [List.foldl_cons, hkept, List.map_cons]
    unfold Family.keep
    split_ifs at hplay ⊢ with hapart
    · rw [Puzzle.playOrSkip_of_some hplay] at haccepted
      refine ⟨s :: new, by simp, ?_⟩
      rw [Puzzle.accepted_cons_of_some hplay, haccepted, List.map_cons]
    · rw [Puzzle.playOrSkip_of_none hplay] at haccepted
      exact ⟨new, rfl, by rw [Puzzle.accepted_cons_of_none hplay, haccepted]⟩

/-- **A family that was declared is a fresh one that was offered its fixed subsets.** Those that
were accepted are the ones that were kept. -/
theorem played_fresh (h : ofDeclaration d = .ok f) : f.fresh.Declared ∧ Played f.fresh f.kept f ∧
    Puzzle.offer f.fresh f.initial = f ∧
    Puzzle.accepted f.fresh f.initial = f.kept.map Subset.choice := by
  obtain ⟨first, hdeclared, hfirst, rfl⟩ := ofDeclaration_eq_ok h
  have hplayed := (Played.refl first).keepAll hdeclared hfirst hdeclared.fixed
  obtain ⟨new, hnew, haccepted⟩ :=
    (Played.refl first).accepted_keep hdeclared hfirst hdeclared.fixed
  let f := Puzzle.offer first first.initial
  have hplayed : Played first first.kept f := hplayed
  -- the family remembers from where it started
  have hfresh : f.fresh = first := hplayed.fresh_eq.trans (fresh_of_uncovered hfirst)
  have hinitial : f.initial = first.initial := by rw [initial, initial, hplayed.fixed]
  have hkept : f.kept = first.kept := by rw [kept, kept, hplayed.fixed]
  show f.fresh.Declared ∧ Played f.fresh f.kept f ∧ Puzzle.offer f.fresh f.initial = f ∧
    Puzzle.accepted f.fresh f.initial = f.kept.map Subset.choice
  rw [hfresh, hinitial, hkept]
  refine ⟨hdeclared, hplayed, rfl, ?_⟩
  rw [kept, hnew]
  exact haccepted

/-! ## Any choices -/

/-- What is covered is put together from subsets that share no item. -/
structure Laid (f : Family) (chosen : List Subset) : Prop where
  mem : ∀ s ∈ chosen, s ∈ f.subsets
  apart : chosen.Pairwise Subset.Apart
  isCovered : ∀ item, f.isCovered item = true ↔ ∃ s ∈ chosen, item ∈ s.items
  isSolved : f.isSolved = true ↔ ∀ item ∈ f.items, chosen.countP (item ∈ ·.items) = 1

/-- **Whatever was chosen since nothing was covered, it shares no item.** An item that two of the
subsets hold would be marked twice. -/
theorem Played.laid (h : Played f chosen f') (hf : f.Declared)
    (hfresh : ∀ item, f.isCovered item = false) : f'.Laid chosen := by
  have hmarked : ∀ item ∈ f.items, f'.marked item = holders chosen item := fun item hitem => by
    rw [h.marked item hitem, marked_eq_zero.mpr (hfresh item), Nat.zero_add]
  refine ⟨h.subsets ▸ h.mem, ?_, fun item => h.isCovered_iff hf hfresh, ?_⟩
  · refine hf.pairwise_apart h.mem fun item hitem => ?_
    rw [← hmarked item hitem]
    exact Bool.toNat_le _
  · rw [isSolved_iff (h.declared hf).nodup_items, h.items]
    refine forall₂_congr fun item hitem => ?_
    rw [hmarked item hitem, holders]

/-- **A family covers its items disjointly.** Let any choices be offered to a family that was
declared. Of a choice that is offered next, the rules say whether it is accepted, and with places
and flags they come to the same. If it is refused, nothing changes, and if it is accepted, its items
are covered and nothing else changes. The family itself is a fresh one that was offered its fixed
subsets. So the subsets that were accepted share no item, the fixed ones among them, what is covered
is what they hold, and the family is solved if they hold each item once. -/
theorem offer_disjoint (h : ofDeclaration d = .ok f) (moves : List Choice) :
    ∃ f', Puzzle.offer f moves = f' ∧ f'.items = f.items ∧ f'.subsets = f.subsets ∧
      (∀ c : Choice,
        ((Puzzle.play? f' c).isSome = true ↔ (∀ key ∈ c.keys, key ∈ f.items) ∧
          (∃ s ∈ f.subsets, ∀ item, item ∈ s.items ↔ item ∈ c.keys) ∧
          ∀ key ∈ c.keys, f'.isCovered key = false) ∧
        (Puzzle.play? f' c).map flags = f'.playByPlaces c ∧
        (Puzzle.play? f' c = none → Puzzle.playOrSkip f' c = f') ∧
        ∀ f'', Puzzle.play? f' c = some f'' → Puzzle.playOrSkip f' c = f'' ∧ f'.Taken c f'') ∧
      Puzzle.offer f.fresh f.initial = f ∧
      Puzzle.accepted f.fresh f.initial = f.kept.map Subset.choice ∧
      ∃ applied, f'.Laid (f.kept ++ applied) ∧
        List.Forall₂ (fun (c : Choice) s => ∀ item, item ∈ s.items ↔ item ∈ c.keys)
          (Puzzle.accepted f moves) applied := by
  obtain ⟨hdeclared, hkept, hoffer, haccepted⟩ := played_fresh h
  obtain ⟨applied, hmeans, hplayed⟩ := played_of_replay (Puzzle.replay?_accepted f moves)
  have hall := hkept.trans hplayed
  have hf' := hall.declared hdeclared
  refine ⟨_, rfl, hplayed.items, hplayed.subsets, fun c => ?_, hoffer, haccepted, applied,
    hall.laid hdeclared fun _ => isCovered_fresh,
    hmeans.imp fun _ _ hselect _ => mem_of_select? hselect⟩
  refine ⟨?_, hf'.map_flags_play? c, Puzzle.playOrSkip_of_none, fun f'' hplay => ?_⟩
  · rw [← hplayed.items, ← hplayed.subsets]
    exact hf'.isSome_play?_iff c
  · exact ⟨Puzzle.playOrSkip_of_some hplay, taken_of_play? hplay⟩

/-- No keys, an item alone, an unknown item and a covered one are refused. The second of two subsets
with the same items is refused too, once the first was accepted. Then the fixed subset that was kept
and the one that was accepted hold each item once. -/
theorem offer_disjoint_refused :
    ∃ f f', ofDeclaration ⟨["A", "B", "C", "D"], [("ab", ["B", "A"]), ("bc", ["B", "C"]),
        ("cd", ["D", "C", "D"]), ("dc", ["D", "C"])], ["ab", "bc"]⟩ = .ok f ∧
      Puzzle.offer f [⟨[]⟩, ⟨["C"]⟩, ⟨["C", "X"]⟩, ⟨["C", "B"]⟩, ⟨["D", "C", "D"]⟩,
        ⟨["C", "D"]⟩] = f' ∧
      ∃ s : Subset, ∀ item ∈ f'.items, (f.kept ++ [s]).countP (item ∈ ·.items) = 1 := by
  obtain ⟨f, hf⟩ : ∃ f, ofDeclaration ⟨["A", "B", "C", "D"], [("ab", ["B", "A"]),
      ("bc", ["B", "C"]), ("cd", ["D", "C", "D"]), ("dc", ["D", "C"])], ["ab", "bc"]⟩ = .ok f :=
    ⟨_, rfl⟩
  obtain ⟨f', hf', -, -, -, -, -, applied, hlaid, hmeans⟩ := offer_disjoint hf
    [⟨[]⟩, ⟨["C"]⟩, ⟨["C", "X"]⟩, ⟨["C", "B"]⟩, ⟨["D", "C", "D"]⟩, ⟨["C", "D"]⟩]
  have hgame : f'.isSolved = true ∧ (Puzzle.accepted f
      [⟨[]⟩, ⟨["C"]⟩, ⟨["C", "X"]⟩, ⟨["C", "B"]⟩, ⟨["D", "C", "D"]⟩, ⟨["C", "D"]⟩]).length = 1 := by
    cases hf
    cases hf'
    decide +kernel
  obtain ⟨hsolved, hlength⟩ := hgame
  rw [hmeans.length_eq] at hlength
  obtain ⟨s, rfl⟩ := List.length_eq_one_iff.mp hlength
  exact ⟨f, f', hf, hf', s, hlaid.isSolved.mp hsolved⟩

end Family

end ExactCover
