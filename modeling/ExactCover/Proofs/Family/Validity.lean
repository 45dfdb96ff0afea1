import ExactCover.Proofs.Family.Encoding
import ExactCover.Proofs.Family.Places
import ExactCover.Proofs.Matrix.Rows
import ExactCover.Proofs.Offering

/-!
# Which declarations are valid

A declaration has a flaw if an item or a name comes twice, if a subset is empty or names something
that is no item, or if a fixed subset was not declared. It can have many at once, and the one that
is reported is the first that is met in a fixed order: the items, then subset by subset, then the
fixed names. Without any flaw the declaration is valid and there is a family, which has the items
and the subsets that were declared, and so has its matrix.

* **`Declaration.Valid`**: a declaration without a flaw.
* **`Declaration.FirstFlaw`**: the flaw that is met first.
* **`Family.ofDeclaration_eq_error_iff`**: it is the one that is reported.
* **`Family.ofDeclaration_exact`**: the results, and what the family of a valid declaration is.
-/

namespace ExactCover

/-! ## Flaws -/

/-- Subsets that may be declared one after the other: no name comes twice, and each subset has at
least one key, and only keys of items. -/
structure Declaration.SoundSubsets (items : List String) (subsets : List (String × List String)) :
    Prop where
  names : (subsets.map Prod.fst).Nodup
  ne_nil : ∀ entry ∈ subsets, entry.2 ≠ []
  known : ∀ entry ∈ subsets, ∀ key ∈ entry.2, key ∈ items

/-- A declaration without a flaw. -/
structure Declaration.Valid (d : Declaration) : Prop where
  items : d.items.Nodup
  subsets : SoundSubsets d.items d.subsets
  fixed : ∀ name ∈ d.fixed, name ∈ d.subsets.map Prod.fst

namespace Declaration

open Family (Flaw Subset)

/-- The first flaw of one subset, where `names` were declared before it. -/
inductive SubsetFlaw (items names : List String) (name : String) (keys : List String) : Flaw → Prop
  | repeated (h : name ∈ names) : SubsetFlaw items names name keys (.duplicateSubset name)
  | empty (hname : name ∉ names) (h : keys = []) :
      SubsetFlaw items names name keys (.emptySubset name)
  | unknown {before after : List String} {key : String} (hname : name ∉ names)
      (hkeys : keys = before ++ key :: after) (hbefore : ∀ key ∈ before, key ∈ items)
      (h : key ∉ items) : SubsetFlaw items names name keys (.unknownItem name key)

/-- The first flaw of a declaration. What comes before it has none. -/
inductive FirstFlaw (d : Declaration) : Flaw → Prop
  | item {before after : List String} {item : String} (hsplit : d.items = before ++ item :: after)
      (hbefore : before.Nodup) (h : item ∈ before) : FirstFlaw d (.duplicateItem item)
  | subset {before after : List (String × List String)} {name : String} {keys : List String}
      {flaw : Flaw} (hitems : d.items.Nodup) (hsplit : d.subsets = before ++ (name, keys) :: after)
      (hbefore : SoundSubsets d.items before)
      (h : SubsetFlaw d.items (before.map Prod.fst) name keys flaw) : FirstFlaw d flaw
  | fixed {before after : List String} {name : String} (hitems : d.items.Nodup)
      (hsubsets : SoundSubsets d.items d.subsets) (hsplit : d.fixed = before ++ name :: after)
      (hbefore : ∀ name ∈ before, name ∈ d.subsets.map Prod.fst)
      (h : name ∉ d.subsets.map Prod.fst) : FirstFlaw d (.unknownSubset name)

/-- The subset that an entry describes: the items that it names, in the order of all items. -/
def subset (items : List String) (entry : String × List String) : Subset :=
  ⟨entry.1, items.filter (· ∈ entry.2)⟩

end Declaration

namespace Family

open Declaration (SoundSubsets SubsetFlaw FirstFlaw)

variable {d : Declaration} {f : Family} {flaw : Flaw} {items keys names : List String}
  {name : String} {subsets : List (String × List String)} {declared declared' : List Subset}

/-! ## Items -/

theorem firstRepeat?_eq_some_iff {seen xs : List String} {x : String} :
    firstRepeat? seen xs = some x ↔ ∃ before after, xs = before ++ x :: after ∧
      before.Nodup ∧ (∀ y ∈ before, y ∉ seen) ∧ (x ∈ seen ∨ x ∈ before) := by
  induction xs generalizing seen with
  | nil => simp [firstRepeat?]
  | cons y xs ih =>
    rw [firstRepeat?]
    split_ifs with hseen
    · have hseen : y ∈ seen := by simpa using hseen
      constructor
      · intro h
        cases h
        exact ⟨[], xs, rfl, .nil, by simp, .inl hseen⟩
      · rintro ⟨before, after, hsplit, -, hfresh, -⟩
        rcases List.cons_eq_append_iff.mp hsplit with ⟨rfl, hcons⟩ | ⟨before', rfl, -⟩
        · cases hcons
          rfl
        · exact absurd hseen (hfresh y List.mem_cons_self)
    · have hseen : y ∉ seen := by simpa using hseen
      rw [ih]
      constructor
      · rintro ⟨before, after, rfl, hnodup, hfresh, hx⟩
        simp only [List.mem_cons, not_or] at hfresh hx
        refine ⟨y :: before, after, rfl, ?_, ?_, ?_⟩
        · exact List.nodup_cons.mpr ⟨fun hy => (hfresh y hy).1 rfl, hnodup⟩
        · exact List.forall_mem_cons.mpr ⟨hseen, fun z hz => (hfresh z hz).2⟩
        · rw [List.mem_cons]
          tauto
      · rintro ⟨before, after, hsplit, hnodup, hfresh, hx⟩
        rcases List.cons_eq_append_iff.mp hsplit with ⟨rfl, hcons⟩ | ⟨before', rfl, rfl⟩
        · cases hcons
          exact absurd hx (by simpa using hseen)
        · obtain ⟨hy, hnodup⟩ := List.nodup_cons.mp hnodup
          obtain ⟨-, hfresh⟩ := List.forall_mem_cons.mp hfresh
          refine ⟨before', after, rfl, hnodup, fun z hz => ?_, ?_⟩
          · exact fun hzy => (List.mem_cons.mp hzy).elim (fun heq => hy (heq ▸ hz)) (hfresh z hz)
          · simp only [List.mem_cons] at hx ⊢
            tauto

/-- The items of a declaration have no flaw if none comes twice. -/
theorem firstRepeat?_items : firstRepeat? [] items = none ↔ items.Nodup := by
  refine ⟨fun h => (firstRepeat?_eq_none h).1, fun h => ?_⟩
  refine Option.eq_none_iff_forall_ne_some.mpr fun item hitem => ?_
  obtain ⟨before, after, rfl, -, -, hrepeat⟩ := firstRepeat?_eq_some_iff.mp hitem
  have hbefore : item ∈ before := by simpa using hrepeat
  exact (List.nodup_append.mp h).2.2 item hbefore item List.mem_cons_self rfl

/-! ## Subsets -/

theorem declare_eq_ok_iff : declare items declared (name, keys) = .ok declared' ↔
    (name ∉ declared.map Subset.name ∧ keys ≠ [] ∧ ∀ key ∈ keys, key ∈ items) ∧
      declared' = declared ++ [Declaration.subset items (name, keys)] := by
  have hnames : name ∉ declared.map Subset.name ↔ ∀ s ∈ declared, s.name ≠ name := by simp
  have hsubset : (⟨name, items.filter keys.contains⟩ : Subset) =
      Declaration.subset items (name, keys) :=
    congrArg (Subset.mk name) (List.filter_congr fun item _ => by simp)
  constructor
  · intro h
    obtain ⟨hname, hne, hknown, rfl⟩ := declare_eq_ok h
    exact ⟨⟨hnames.mpr hname, hne, hknown⟩, by rw [hsubset]⟩
  · rintro ⟨⟨hname, hne, hknown⟩, rfl⟩
    have hany : declared.any (·.name = name) = false := by simpa using hname
    have hfind : keys.find? (!items.contains ·) = none := by simpa using hknown
    simp only [declare, hany, hne, hfind, hsubset]
    rfl

theorem declare_eq_error_iff : declare items declared (name, keys) = .error flaw ↔
    SubsetFlaw items (declared.map Subset.name) name keys flaw := by
  constructor
  · intro h
    simp only [declare] at h
    split_ifs at h with hname hne
    · cases h
      exact .repeated (by simpa using hname)
    · cases h
      exact .empty (by simpa using hname) hne
    · split at h
      · next key hfind =>
        cases h
        obtain ⟨hkey, before, after, hsplit, hbefore⟩ := List.find?_eq_some_iff_append.mp hfind
        exact .unknown (by simpa using hname) hsplit (by simpa using hbefore) (by simpa using hkey)
      · cases h
  · intro h
    cases h with
    | repeated h =>
      have hany : declared.any (·.name = name) = true := by simpa using h
      simp only [declare, hany, if_true]
    | empty hname h =>
      have hany : declared.any (·.name = name) = false := by simpa using hname
      simp only [declare, hany, h]
      rfl
    | @unknown before after key hname hkeys hbefore h =>
      have hany : declared.any (·.name = name) = false := by simpa using hname
      have hne : keys ≠ [] := by simp [hkeys]
      have hfind : keys.find? (!items.contains ·) = some key := List.find?_eq_some_iff_append.mpr
        ⟨by simpa using h, before, after, hkeys, by simpa using hbefore⟩
      simp only [declare, hany, hne, hfind]
      rfl

theorem map_name_subset (items : List String) (subsets : List (String × List String)) :
    (subsets.map (Declaration.subset items)).map Subset.name = subsets.map Prod.fst := by
  rw [List.map_map]
  rfl

theorem soundSubsets_concat : SoundSubsets items (subsets ++ [(name, keys)]) ↔
    SoundSubsets items subsets ∧
      name ∉ subsets.map Prod.fst ∧ keys ≠ [] ∧ ∀ key ∈ keys, key ∈ items := by
  constructor
  · rintro ⟨hnames, hne, hknown⟩
    rw [List.map_append, List.nodup_append] at hnames
    simp only [List.forall_mem_append, List.forall_mem_singleton] at hne hknown
    refine ⟨⟨hnames.1, hne.1, hknown.1⟩, fun hmem => ?_, hne.2, hknown.2⟩
    exact hnames.2.2 name hmem name (by simp) rfl
  · rintro ⟨⟨hnames, hne, hknown⟩, hname, hne', hknown'⟩
    refine ⟨?_, ?_, ?_⟩
    · rw [List.map_append, List.map_singleton, ← List.concat_eq_append]
      exact hnames.concat hname
    · exact List.forall_mem_append.mpr ⟨hne, by simpa using hne'⟩
    · exact List.forall_mem_append.mpr ⟨hknown, by simpa using hknown'⟩

/-- **Subsets are declared one after the other if they may be.** Induction on the subsets, from the
last one. -/
theorem declareAll_eq_ok_iff : subsets.foldlM (declare items) [] = .ok declared ↔
    SoundSubsets items subsets ∧ declared = subsets.map (Declaration.subset items) := by
  induction subsets using List.reverseRecOn generalizing declared with
  | nil =>
    constructor
    · rintro ⟨⟩
      exact ⟨⟨.nil, by simp, by simp⟩, rfl⟩
    · rintro ⟨-, rfl⟩
      rfl
  | append_singleton subsets entry ih =>
    obtain ⟨name, keys⟩ := entry
    rw [List.foldlM_append, bind_eq_ok, soundSubsets_concat, List.map_append, List.map_singleton]
    constructor
    · rintro ⟨declared', hdeclared', hstep⟩
      obtain ⟨hsound, rfl⟩ := ih.mp hdeclared'
      rw [List.foldlM_cons] at hstep
      obtain ⟨last, hstep, hlast⟩ := bind_eq_ok.mp hstep
      cases hlast
      obtain ⟨hentry, rfl⟩ := declare_eq_ok_iff.mp hstep
      rw [map_name_subset] at hentry
      exact ⟨⟨hsound, hentry⟩, rfl⟩
    · rintro ⟨⟨hsound, hentry⟩, rfl⟩
      rw [← map_name_subset items] at hentry
      refine ⟨_, ih.mpr ⟨hsound, rfl⟩, ?_⟩
      rw [List.foldlM_cons]
      exact bind_eq_ok.mpr ⟨_, declare_eq_ok_iff.mpr ⟨hentry, rfl⟩, rfl⟩

/-- The first flaw of the subsets is that of a subset before which all may be declared. -/
theorem declareAll_eq_error_iff : subsets.foldlM (declare items) [] = .error flaw ↔
    ∃ before name keys after, subsets = before ++ (name, keys) :: after ∧
      SoundSubsets items before ∧ SubsetFlaw items (before.map Prod.fst) name keys flaw := by
  rw [foldlM_eq_error_iff]
  constructor
  · rintro ⟨before, ⟨name, keys⟩, after, declared, hsplit, hbefore, hflaw⟩
    obtain ⟨hsound, rfl⟩ := declareAll_eq_ok_iff.mp hbefore
    rw [declare_eq_error_iff, map_name_subset] at hflaw
    exact ⟨before, name, keys, after, hsplit, hsound, hflaw⟩
  · rintro ⟨before, name, keys, after, hsplit, hsound, hflaw⟩
    rw [← map_name_subset items, ← declare_eq_error_iff] at hflaw
    exact ⟨before, (name, keys), after, _, hsplit, declareAll_eq_ok_iff.mpr ⟨hsound, rfl⟩, hflaw⟩

/-! ## Fixed names -/

theorem exists_named_iff :
    (∃ s, named declared name = .ok s) ↔ name ∈ declared.map Subset.name := by
  unfold named
  cases hfind : declared.find? (·.name = name) with
  | none => simpa using List.find?_eq_none.mp hfind
  | some s =>
    have hname : s.name = name := by simpa using List.find?_some hfind
    have hmem := List.mem_map_of_mem (f := Subset.name) (List.mem_of_find?_eq_some hfind)
    rw [hname] at hmem
    exact ⟨fun _ => hmem, fun _ => ⟨s, rfl⟩⟩

theorem named_eq_error_iff : named declared name = .error flaw ↔
    name ∉ declared.map Subset.name ∧ flaw = .unknownSubset name := by
  rw [← exists_named_iff]
  unfold named
  cases declared.find? (·.name = name) with
  | none => simp [eq_comm]
  | some s => simp

/-! ## Declarations -/

/-- The family of a declaration, before the fixed subsets are chosen. -/
def start (d : Declaration) (fixed : List Subset) : Family :=
  ⟨d.items.map (·, false), d.subsets.map (Declaration.subset d.items), fixed⟩

theorem ofDeclaration_of_nodup (h : d.items.Nodup) : ofDeclaration d = do
    let subsets ← d.subsets.foldlM (declare d.items) []
    let fixed ← d.fixed.mapM (named subsets)
    let fresh : Family := ⟨d.items.map (·, false), subsets, fixed⟩
    return Puzzle.offer fresh fresh.initial := by
  rw [ofDeclaration, firstRepeat?_items.mpr h]
  rfl

theorem exists_repeat (h : ¬ d.items.Nodup) : ∃ before item after,
    d.items = before ++ item :: after ∧ before.Nodup ∧ item ∈ before ∧
      ofDeclaration d = .error (.duplicateItem item) := by
  rw [← firstRepeat?_items] at h
  obtain ⟨item, hitem⟩ := Option.ne_none_iff_exists'.mp h
  obtain ⟨before, after, hsplit, hnodup, -, hrepeat⟩ := firstRepeat?_eq_some_iff.mp hitem
  refine ⟨before, item, after, hsplit, hnodup, by simpa using hrepeat, ?_⟩
  rw [ofDeclaration, hitem]
  rfl

theorem ofDeclaration_of_sound (h : d.items.Nodup) (hsound : SoundSubsets d.items d.subsets) :
    ofDeclaration d = do
      let fixed ← d.fixed.mapM (named (d.subsets.map (Declaration.subset d.items)))
      return Puzzle.offer (start d fixed) (start d fixed).initial := by
  rw [ofDeclaration_of_nodup h, declareAll_eq_ok_iff.mpr ⟨hsound, rfl⟩]
  rfl

/-- **The flaw that is reported is the one that is met first.** -/
theorem ofDeclaration_eq_error_iff : ofDeclaration d = .error flaw ↔ d.FirstFlaw flaw := by
  constructor
  · intro h
    by_cases hitems : d.items.Nodup
    swap
    · obtain ⟨before, item, after, hsplit, hnodup, hitem, hrepeat⟩ := exists_repeat hitems
      cases hrepeat.symm.trans h
      exact .item hsplit hnodup hitem
    by_cases hsound : SoundSubsets d.items d.subsets
    · rw [ofDeclaration_of_sound hitems hsound] at h
      rcases bind_eq_error.mp h with h | ⟨fixed, -, h⟩
      · obtain ⟨before, name, after, hsplit, hbefore, hname⟩ := mapM_eq_error_iff.mp h
        simp only [exists_named_iff, named_eq_error_iff, map_name_subset] at hbefore hname
        obtain ⟨hname, rfl⟩ := hname
        exact .fixed hitems hsound hsplit hbefore hname
      · cases h
    · rw [ofDeclaration_of_nodup hitems] at h
      rcases bind_eq_error.mp h with h | ⟨subsets, hsubsets, -⟩
      · obtain ⟨before, name, keys, after, hsplit, hbefore, hflaw⟩ :=
          declareAll_eq_error_iff.mp h
        exact .subset hitems hsplit hbefore hflaw
      · exact absurd (declareAll_eq_ok_iff.mp hsubsets).1 hsound
  · intro h
    cases h with
    | @item before after item hsplit hbefore h =>
      have hrepeat : firstRepeat? [] d.items = some item := firstRepeat?_eq_some_iff.mpr
        ⟨before, after, hsplit, hbefore, by simp, .inr h⟩
      rw [ofDeclaration, hrepeat]
      rfl
    | @subset before after name keys _ hitems hsplit hbefore h =>
      rw [ofDeclaration_of_nodup hitems]
      exact bind_eq_error.mpr (.inl (declareAll_eq_error_iff.mpr
        ⟨before, name, keys, after, hsplit, hbefore, h⟩))
    | @fixed before after name hitems hsubsets hsplit hbefore h =>
      rw [ofDeclaration_of_sound hitems hsubsets]
      refine bind_eq_error.mpr (.inl (mapM_eq_error_iff.mpr
        ⟨before, name, after, hsplit, ?_⟩))
      simp only [exists_named_iff, named_eq_error_iff, map_name_subset]
      exact ⟨hbefore, h, trivial⟩

/-- **A family comes of a valid declaration.** Its fixed subsets are those that are named, and they
were offered to a family in which nothing was covered. -/
theorem ofDeclaration_eq_ok_iff : ofDeclaration d = .ok f ↔ d.Valid ∧ ∃ fixed,
    List.Forall₂ (fun name s => named (d.subsets.map (Declaration.subset d.items)) name = .ok s)
      d.fixed fixed ∧ f = Puzzle.offer (start d fixed) (start d fixed).initial := by
  constructor
  · intro h
    have hitems : d.items.Nodup := by
      by_contra hitems
      obtain ⟨-, item, -, -, -, -, hrepeat⟩ := exists_repeat hitems
      cases hrepeat.symm.trans h
    rw [ofDeclaration_of_nodup hitems] at h
    obtain ⟨subsets, hsubsets, h⟩ := bind_eq_ok.mp h
    obtain ⟨hsound, rfl⟩ := declareAll_eq_ok_iff.mp hsubsets
    obtain ⟨fixed, hfixed, h⟩ := bind_eq_ok.mp h
    have hnamed := mapM_eq_ok_iff.mp hfixed
    refine ⟨⟨hitems, hsound, fun name hname => ?_⟩, fixed, hnamed, (Except.ok.inj h).symm⟩
    obtain ⟨s, -, hs⟩ := exists_of_forall₂ hnamed.flip hname
    rw [← map_name_subset d.items]
    exact exists_named_iff.mp ⟨s, hs⟩
  · rintro ⟨⟨hitems, hsound, -⟩, fixed, hfixed, rfl⟩
    rw [ofDeclaration_of_sound hitems hsound]
    exact bind_eq_ok.mpr ⟨fixed, mapM_eq_ok_iff.mpr hfixed, rfl⟩

/-- **There is a family for exactly the valid declarations.** -/
theorem exists_ofDeclaration_iff : (∃ f, ofDeclaration d = .ok f) ↔ d.Valid := by
  refine ⟨fun ⟨f, h⟩ => (ofDeclaration_eq_ok_iff.mp h).1, fun ⟨hitems, hsound, hfixed⟩ => ?_⟩
  rw [ofDeclaration_of_sound hitems hsound]
  cases hnamed : d.fixed.mapM (named (d.subsets.map (Declaration.subset d.items))) with
  | ok fixed => exact ⟨_, rfl⟩
  | error flaw =>
    obtain ⟨before, name, after, hsplit, -, hname⟩ := mapM_eq_error_iff.mp hnamed
    rw [named_eq_error_iff, map_name_subset] at hname
    exact absurd (hfixed name (by simp [hsplit])) hname.1

/-! ## Families -/

/-- **The items and the subsets of a family are those of its declaration,** and its fixed subsets
are those that are named there. -/
theorem eq_of_ofDeclaration (h : ofDeclaration d = .ok f) : f.items = d.items ∧
    f.subsets = d.subsets.map (Declaration.subset d.items) ∧
      List.Forall₂ (fun name s => named f.subsets name = .ok s) d.fixed f.fixed := by
  obtain ⟨-, fixed, hfixed, rfl⟩ := ofDeclaration_eq_ok_iff.mp h
  let first := start d fixed
  obtain ⟨chosen, -, hplayed⟩ := played_of_replay (Puzzle.replay?_accepted first first.initial)
  have hitems : first.items = d.items := by simp [first, start, items, Function.comp_def]
  exact ⟨hplayed.items.trans hitems, hplayed.subsets, hplayed.subsets ▸ hplayed.fixed ▸ hfixed⟩

/-- The subset that an entry describes holds the items that the entry names. -/
theorem filter_mem_subset (items : List String) (entry : String × List String) :
    items.filter (· ∈ (Declaration.subset items entry).items) =
      (Declaration.subset items entry).items := by
  refine List.filter_congr fun item hitem => ?_
  simp [Declaration.subset, hitem]

/-- **The matrix of a family has a row for each subset that was declared.** -/
theorem exists_matrix (h : ofDeclaration d = .ok f) : ∃ m nodes, Puzzle.matrix f = .ok m ∧
    m.HasRows d.items (d.subsets.map fun entry => (Declaration.subset d.items entry).items)
      nodes := by
  obtain ⟨⟨hnodup, hsound, -⟩, -⟩ := ofDeclaration_eq_ok_iff.mp h
  obtain ⟨hitems, hsubsets, -⟩ := eq_of_ofDeclaration h
  let rows := d.subsets.map fun entry => (Declaration.subset d.items entry).items
  have hmatrix : Puzzle.matrix f = Matrix.ofRows d.items rows := by
    show Matrix.ofRows f.items (f.subsets.map Subset.items) = _
    rw [hitems, hsubsets, List.map_map]
    rfl
  have hrows : ∀ row ∈ rows, ∃ key ∈ row, key ∈ d.items := by
    intro row hrow
    obtain ⟨entry, hentry, rfl⟩ := List.mem_map.mp hrow
    obtain ⟨key, hkey⟩ := List.exists_mem_of_ne_nil _ (hsound.ne_nil entry hentry)
    have hitem := hsound.known entry hentry key hkey
    exact ⟨key, List.mem_filter.mpr ⟨hitem, by simpa using hkey⟩, hitem⟩
  obtain ⟨m, nodes, hm, hhas⟩ := Matrix.hasRows_ofRows hnodup hrows
  refine ⟨m, nodes, hmatrix.trans hm, ?_⟩
  rw [List.map_map] at hhas
  simpa only [Function.comp_def, filter_mem_subset] using hhas

/-- **A declaration is checked exactly.** There is a family if and only if the declaration is valid,
and else the flaw is reported that is met first. The family has the items that were given. Each
fixed name gives one initial choice, which is the items that the subset of that name has, in the
order of all items. The matrix has a column for each item, and a row for each subset, which touches
its items once each. The places of the keys of a subset, sorted and without repeats, are those of
its items. -/
theorem ofDeclaration_exact (d : Declaration) :
    ((∃ f, ofDeclaration d = .ok f) ↔ d.Valid) ∧
    (∀ flaw, ofDeclaration d = .error flaw ↔ d.FirstFlaw flaw) ∧
    ∀ f, ofDeclaration d = .ok f →
      f.items = d.items ∧
      List.Forall₂ (fun name (c : Choice) => ∃ keys, (name, keys) ∈ d.subsets ∧
        c.keys = d.items.filter (· ∈ keys)) d.fixed (Puzzle.initial f) ∧
      (∃ m nodes, Puzzle.matrix f = .ok m ∧
        m.HasRows d.items (d.subsets.map fun (_, keys) => d.items.filter (· ∈ keys)) nodes) ∧
      List.Forall₂ (fun (name, keys) s => s.name = name ∧ s.items = d.items.filter (· ∈ keys) ∧
        places? d.items keys = some (s.items.map (d.items.idxOf ·))) d.subsets f.subsets := by
  refine ⟨exists_ofDeclaration_iff, fun flaw => ofDeclaration_eq_error_iff, fun f h => ?_⟩
  obtain ⟨⟨hnodup, hsound, -⟩, -⟩ := ofDeclaration_eq_ok_iff.mp h
  obtain ⟨hitems, hsubsets, hfixed⟩ := eq_of_ofDeclaration h
  refine ⟨hitems, ?_, exists_matrix h, ?_⟩
  · show List.Forall₂ _ d.fixed (f.fixed.map Subset.choice)
    rw [List.forall₂_map_right_iff]
    refine hfixed.imp fun name s hnamed => ?_
    obtain ⟨hs, rfl⟩ := eq_of_named hnamed
    rw [hsubsets] at hs
    obtain ⟨⟨name, keys⟩, hentry, rfl⟩ := List.mem_map.mp hs
    exact ⟨keys, hentry, rfl⟩
  · rw [hsubsets, List.forall₂_map_right_iff, List.forall₂_same]
    rintro ⟨name, keys⟩ hentry
    refine ⟨rfl, rfl, ?_⟩
    rw [places?_eq hnodup, if_pos (hsound.known _ hentry)]
    rfl

/-- Keys may be written in any order and more than once. Of several flaws, that of the first subset
is met before those of the second one and of the fixed names. -/
theorem ofDeclaration_exact_unsorted :
    (∃ f, ofDeclaration ⟨["A", "B", "C"], [("cb", ["C", "B", "C"]), ("a", ["A"])], ["cb"]⟩ = .ok f ∧
      ∃ m nodes, Puzzle.matrix f = .ok m ∧
        m.HasRows ["A", "B", "C"] [["B", "C"], ["A"]] nodes) ∧
    ofDeclaration ⟨["A"], [("a", ["A", "X", "Y"]), ("a", [])], ["b"]⟩ =
      .error (.unknownItem "a" "X") := by
  constructor
  · obtain ⟨f, hf⟩ : ∃ f, ofDeclaration ⟨["A", "B", "C"],
        [("cb", ["C", "B", "C"]), ("a", ["A"])], ["cb"]⟩ = .ok f := ⟨_, rfl⟩
    obtain ⟨-, -, hmatrix, -⟩ := (ofDeclaration_exact _).2.2 f hf
    exact ⟨f, hf, hmatrix⟩
  · obtain ⟨-, hflaw, -⟩ := ofDeclaration_exact ⟨["A"], [("a", ["A", "X", "Y"]), ("a", [])], ["b"]⟩
    have hfirst : SubsetFlaw ["A"] [] "a" ["A", "X", "Y"] (.unknownItem "a" "X") :=
      .unknown (by simp) (show _ = ["A"] ++ "X" :: ["Y"] from rfl) (by simp) (by decide)
    exact (hflaw _).mpr (.subset (by simp)
      (show _ = [] ++ ("a", ["A", "X", "Y"]) :: [("a", [])] from rfl) ⟨.nil, by simp, by simp⟩
      hfirst)

end Family

end ExactCover
