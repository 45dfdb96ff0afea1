import ExactCover.Family.Basic
import ExactCover.Proofs.Steps
import Mathlib.Data.List.Nodup

/-!
# What a declaration has checked

A family that was made from a declaration has no item twice and no name twice. Each of its subsets
holds some items, all of them items of the family, in the order of the whole and none twice. Playing
changes none of this, since it changes the marks only.

* **`Family.Declared`**: what is known of such a family.
* **`Family.declare_eq_ok`**: what the declaration of one subset has checked.
* **`Family.ofDeclaration_eq_ok`**: a family is a fresh one, with its fixed subsets chosen in order.
-/

namespace ExactCover

namespace Family

/-- What holds of every family that was declared, whatever was played since. -/
structure Declared (f : Family) : Prop where
  nodup_items : f.items.Nodup
  nodup_names : (f.subsets.map Subset.name).Nodup
  ne_nil : ∀ s ∈ f.subsets, s.items ≠ []
  /-- The items of a subset are items of the family, in their order and without repeats. -/
  ordered : ∀ s ∈ f.subsets, f.items.filter (· ∈ s.items) = s.items
  fixed : ∀ s ∈ f.fixed, s ∈ f.subsets

/-! ## Items -/

theorem firstRepeat?_eq_none {xs seen : List String} (h : firstRepeat? seen xs = none) :
    xs.Nodup ∧ ∀ x ∈ xs, x ∉ seen := by
  induction xs generalizing seen with
  | nil => simp
  | cons x xs ih =>
    rw [firstRepeat?] at h
    split_ifs at h with hseen
    obtain ⟨hnodup, hfresh⟩ := ih h
    simp only [List.mem_cons, not_or] at hfresh
    refine ⟨List.nodup_cons.mpr ⟨fun hx => (hfresh x hx).1 rfl, hnodup⟩, ?_⟩
    refine List.forall_mem_cons.mpr ⟨by simpa using hseen, fun y hy => (hfresh y hy).2⟩

/-! ## Subsets -/

/-- **What the declaration of a subset has checked,** and what it adds. -/
theorem declare_eq_ok {items keys : List String} {name : String} {declared declared' : List Subset}
    (h : declare items declared (name, keys) = .ok declared') :
    (∀ s ∈ declared, s.name ≠ name) ∧ keys ≠ [] ∧ (∀ key ∈ keys, key ∈ items) ∧
      declared' = declared ++ [{ name, items := items.filter keys.contains }] := by
  simp only [declare] at h
  split_ifs at h with hname hkeys
  split at h
  · cases h
  case h_2 hfind =>
    refine ⟨by simpa using hname, hkeys, fun key hkey => ?_, (Except.ok.inj h).symm⟩
    simpa using List.find?_eq_none.mp hfind key hkey

/-- What holds of the subsets that were declared so far. -/
structure Checked (items : List String) (declared : List Subset) : Prop where
  nodup_names : (declared.map Subset.name).Nodup
  ne_nil : ∀ s ∈ declared, s.items ≠ []
  ordered : ∀ s ∈ declared, items.filter (· ∈ s.items) = s.items

theorem Checked.declare {items keys : List String} {name : String}
    {declared declared' : List Subset} (h : Checked items declared)
    (hdeclare : declare items declared (name, keys) = .ok declared') : Checked items declared' := by
  obtain ⟨hname, hkeys, hmem, rfl⟩ := declare_eq_ok hdeclare
  refine ⟨?_, fun s hs => ?_, fun s hs => ?_⟩
  · rw [List.map_append, List.nodup_append]
    refine ⟨h.nodup_names, by simp, fun other hother => ?_⟩
    obtain ⟨s, hs, rfl⟩ := List.mem_map.mp hother
    simpa using hname s hs
  · rcases List.mem_append.mp hs with hs | hs
    · exact h.ne_nil s hs
    · -- the keys name at least one item
      obtain ⟨key, hkey⟩ := List.exists_mem_of_ne_nil keys hkeys
      rw [List.mem_singleton.mp hs]
      exact List.ne_nil_of_mem (List.mem_filter.mpr ⟨hmem key hkey, by simpa using hkey⟩)
  · rcases List.mem_append.mp hs with hs | hs
    · exact h.ordered s hs
    · rw [List.mem_singleton.mp hs]
      refine List.filter_congr fun item hitem => ?_
      simp [hitem]

theorem Checked.declareAll {items : List String} {subsets : List (String × List String)}
    {declared declared' : List Subset} (h : Checked items declared)
    (hdeclare : subsets.foldlM (Family.declare items) declared = .ok declared') :
    Checked items declared' := by
  induction subsets generalizing declared with
  | nil =>
    cases hdeclare
    exact h
  | cons entry subsets ih =>
    rw [List.foldlM_cons] at hdeclare
    obtain ⟨next, hstep, hrest⟩ := bind_eq_ok.mp hdeclare
    exact ih (h.declare hstep) hrest

theorem eq_of_named {s : Subset} {declared : List Subset} {name : String}
    (h : named declared name = .ok s) : s ∈ declared ∧ s.name = name := by
  unfold named at h
  split at h
  · next t hfind =>
    cases h
    exact ⟨List.mem_of_find?_eq_some hfind, by simpa using List.find?_some hfind⟩
  · cases h

theorem mem_of_mapM_named {declared fixed : List Subset} {names : List String}
    (h : names.mapM (named declared) = .ok fixed) : ∀ s ∈ fixed, s ∈ declared := by
  intro s hs
  obtain ⟨name, -, hnamed⟩ := exists_of_forall₂ (mapM_eq_ok_iff.mp h) hs
  exact (eq_of_named hnamed).1

/-! ## Families -/

/-- The marks do not matter to what a declaration has checked. -/
theorem Declared.of_eq {f f' : Family} (h : f.Declared) (hitems : f'.items = f.items)
    (hsubsets : f'.subsets = f.subsets) (hfixed : f'.fixed = f.fixed) : f'.Declared := by
  obtain ⟨hnodup, hnames, hne, hordered, hmem⟩ := h
  constructor
  · rwa [hitems]
  · rwa [hsubsets]
  · rwa [hsubsets]
  · rwa [hsubsets, hitems]
  · rwa [hfixed, hsubsets]

/-- **A family that was declared is a fresh one with its fixed subsets chosen in order.** -/
theorem ofDeclaration_eq_ok {d : Declaration} {f : Family} (h : ofDeclaration d = .ok f) :
    ∃ fresh : Family, fresh.Declared ∧ (∀ item, fresh.isCovered item = false) ∧
      f = fresh.initial.foldl Puzzle.playOrSkip fresh := by
  unfold ofDeclaration at h
  split at h
  · cases h
  case h_2 hrepeat =>
    obtain ⟨subsets, hsubsets, h⟩ := bind_eq_ok.mp h
    obtain ⟨fixed, hfixed, h⟩ := bind_eq_ok.mp h
    cases h
    have hnone : Checked d.items [] := ⟨by simp, by simp, by simp⟩
    obtain ⟨hnames, hne, hordered⟩ := hnone.declareAll hsubsets
    have hitems : (d.items.map fun item => (item, false)).map Prod.fst = d.items := by
      simp [Function.comp_def]
    refine ⟨_, ⟨?_, hnames, hne, ?_, mem_of_mapM_named hfixed⟩, fun item => ?_, rfl⟩
    · rw [items, hitems]
      exact (firstRepeat?_eq_none hrepeat).1
    · rwa [items, hitems]
    · simp [isCovered]

end Family

end ExactCover
