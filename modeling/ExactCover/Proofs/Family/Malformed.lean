import ExactCover.Proofs.Family.Reading
import ExactCover.Proofs.Text.Refusal

/-!
# Malformed lines come first

A text is read line by line, and a line is refused for its form alone: for what stands in front of
its first colon, and for whether there were items on an earlier line. What the items and the subsets
are is looked at only when all lines were accepted. So of the malformed lines the first one is
reported, whatever else is wrong.

* **`Family.Named`**, **`Family.Unlabelled`**: the name of a line, and that it has none;
  **`Family.unlabelled_or_labelled`**: one of the two, and with a name a line is as in a sheet.
* **`Family.Malformed`**: a malformed line, after the lines before it; **`Family.WellFormed`**,
  **`Family.FirstMalformed`**: lines without a malformed one, and the first malformed one.
* **`Family.Draft.Follows`**: what a draft remembers of the lines before;
  **`Family.Draft.Follows.add_eq_error_iff`**: so it refuses just the malformed lines.
* **`Family.Adds`**: what a line says that is accepted, and **`Family.adds_of_add`**.
* **`Family.WellFormed.read_eq`**: lines that are accepted are a sheet.
* **`Family.read_blames_first`**: the result.
-/

namespace ExactCover

namespace Family

open Text (IsGap IsIdle IsTight Spaced Padded keptLines)

variable {line front rest : List Char} {before after ls : List (List Char)} {name name' : String}
  {values : List String} {number : Nat} {d d' : Draft} {e : ReadError}

/-! ## Names -/

/-- Whether a line is neither blank nor a comment and has this name in front of its first colon, up
to the blanks around it. -/
def Named (name : String) (line : List Char) : Prop :=
  ¬ IsIdle ['#'] line ∧ ∃ front rest, Text.trim line = front ++ ':' :: rest ∧
    ':' ∉ front ∧ Text.trim front = name.toList

/-- Whether a line is neither blank nor a comment but has no colon, or only blanks in front of its
first colon. -/
def Unlabelled (line : List Char) : Prop :=
  ¬ IsIdle ['#'] line ∧ (':' ∉ Text.trim line ∨
    ∃ gap rest, IsGap gap ∧ Text.trim line = gap ++ ':' :: rest)

theorem Named.unique (h : Named name line) (h' : Named name' line) : name = name' := by
  obtain ⟨-, front, rest, hline, hfront, hname⟩ := h
  obtain ⟨-, front', rest', hline', hfront', hname'⟩ := h'
  obtain rfl := Text.front_unique hfront hfront' (hline.symm.trans hline')
  exact String.toList_injective (hname.symm.trans hname')

theorem Unlabelled.eq_empty (h : Unlabelled line) (h' : Named name line) : name = "" := by
  obtain ⟨-, front, rest, hline, hfront, hname⟩ := h'
  rcases h with ⟨-, hcolon | ⟨gap, rest', hgap, hline'⟩⟩
  · exact absurd (by simp [hline]) hcolon
  · obtain rfl :=
      Text.front_unique hfront (colon_notMem_of_isGap hgap) (hline.symm.trans hline')
    rw [Text.trim_of_isGap hgap] at hname
    exact String.toList_injective hname.symm

/-- **A line with a name is that name and some words.** -/
theorem labelled_of_trim_eq (hidle : ¬ IsIdle ['#'] line)
    (hline : Text.trim line = front ++ ':' :: rest) (hfront : ':' ∉ front)
    (hname : Text.trim front = name.toList) (hne : name.toList ≠ []) :
    IsLabel name.toList ∧ Labelled name ((Text.words rest).map String.ofList) line := by
  have hsignificant := isSignificant_trim.mpr hidle
  obtain ⟨htight, gap, gap', hgap, hgap', hpadded⟩ := Text.trim_spec line
  obtain ⟨htight', before, after, hbefore, hafter, hpadded'⟩ := Text.trim_spec front
  rw [hname] at htight' hpadded'
  rw [hline] at hsignificant htight hpadded
  subst hpadded'
  -- no blank stands in front of the name, since none stands at the start of the line
  obtain rfl : before = [] := by
    cases before with
    | nil => rfl
    | cons c before =>
      have hsolid := htight.head c rfl
      rw [hbefore c List.mem_cons_self] at hsolid
      cases hsolid
  rw [List.nil_append] at hsignificant hpadded hfront
  constructor
  · refine ⟨hne, htight', fun hcolon => hfront (List.mem_append_left _ hcolon), fun hmark => ?_⟩
    have hmark : name.toList.head? = some '#' := hmark
    simp [isSignificant, List.head?_append_of_ne_nil _ hne, hmark] at hsignificant
  · refine ⟨gap, after, rest ++ gap', hgap, hafter, ?_, ?_⟩
    · have hwords : ((Text.words rest).map String.ofList).map String.toList =
          Text.words (rest ++ gap') := by
        simp [Text.words_append_gap hgap', Function.comp_def]
      rw [hwords]
      exact Text.spaced_words _
    · rw [hpadded]
      simp only [List.append_assoc, List.cons_append]

/-- A line that is neither blank nor a comment has a name, or none. -/
theorem unlabelled_or_labelled (h : ¬ IsIdle ['#'] line) :
    Unlabelled line ∨ ∃ name values, IsLabel name.toList ∧ Labelled name values line := by
  by_cases hcolon : ':' ∈ Text.trim line
  · obtain ⟨front, rest, hline, hfront⟩ := List.eq_append_cons_of_mem hcolon
    by_cases hname : Text.trim front = []
    · exact .inl ⟨h, .inr ⟨front, rest, Text.isGap_of_trim_eq_nil hname, hline⟩⟩
    · have htoList : Text.trim front = (String.ofList (Text.trim front)).toList :=
        String.toList_ofList.symm
      exact .inr ⟨_, _, labelled_of_trim_eq h hline hfront htoList (htoList ▸ hname)⟩
  · exact .inl ⟨h, .inl hcolon⟩

theorem Labelled.named (h : Labelled name values line) (hname : IsLabel name.toList) :
    Named name line := by
  obtain ⟨after, rest, hafter, -, htrim⟩ := h.trim_eq hname
  exact ⟨isSignificant_trim.mp (h.ofLine?_trim hname).1, name.toList ++ after, rest,
    by rw [htrim, List.append_assoc], hname.colon_notMem hafter, hname.trim_append hafter⟩

theorem IsLabel.ne_empty (h : IsLabel name.toList) : name ≠ "" := fun hempty =>
  h.ne_nil (by simp [hempty])

theorem Unlabelled.ofLine? (h : Unlabelled line) : Entry.ofLine? (Text.trim line) = none := by
  rcases h with ⟨-, hcolon | ⟨gap, rest, hgap, hline⟩⟩
  · have hdrop : (Text.trim line).dropWhile (· ≠ ':') = [] :=
      List.dropWhile_eq_nil_iff.mpr fun c hc => decide_eq_true (ne_of_mem_of_not_mem hc hcolon)
    rw [Entry.ofLine?, hdrop]
  · have hcolon := colon_notMem_of_isGap hgap
    rw [hline, Entry.ofLine?, Text.dropWhile_append_cons hcolon]
    dsimp only
    rw [Text.takeWhile_append_cons hcolon, Text.trim_of_isGap hgap]
    rfl

/-! ## Malformed lines -/

/-- What is wrong with a line after some other lines, whatever the items and the subsets are. -/
inductive Malformed (before : List (List Char)) (line : List Char) : ReadError → Prop
  | separator : Unlabelled line → Malformed before line (.missingSeparator (before.length + 1))
  | columns {earlier : List Char} : Named "columns" line → earlier ∈ before →
      Named "columns" earlier → Malformed before line (.duplicateColumns (before.length + 1))
  | subset {name : String} : Named name line → name ≠ "" → name ≠ "columns" → name ≠ "fixed" →
      (∀ earlier ∈ before, ¬ Named "columns" earlier) →
      Malformed before line (.missingColumns (before.length + 1))

/-- Lines none of which is malformed after the ones before it. -/
inductive WellFormed : List (List Char) → Prop
  | nil : WellFormed []
  | concat {ls : List (List Char)} {line : List Char} : WellFormed ls →
      (∀ e, ¬ Malformed ls line e) → WellFormed (ls ++ [line])

/-- Lines the first malformed one of which is malformed in this way. -/
def FirstMalformed (ls : List (List Char)) (e : ReadError) : Prop :=
  ∃ before line after, ls = before ++ line :: after ∧ WellFormed before ∧ Malformed before line e

theorem wellFormed_or_firstMalformed (ls : List (List Char)) :
    WellFormed ls ∨ ∃ e, FirstMalformed ls e := by
  induction ls using List.reverseRecOn with
  | nil => exact .inl .nil
  | append_singleton ls line ih =>
    rcases ih with h | ⟨e, before, line', after, rfl, hbefore, hmalformed⟩
    · by_cases hline : ∃ e, Malformed ls line e
      · obtain ⟨e, he⟩ := hline
        exact .inr ⟨e, ls, line, [], rfl, h, he⟩
      · exact .inl (.concat h fun e he => hline ⟨e, he⟩)
    · exact .inr ⟨e, before, line', after ++ [line], by simp, hbefore, hmalformed⟩

theorem Malformed.not_isIdle (h : Malformed before line e) : ¬ IsIdle ['#'] line := by
  cases h with
  | separator h => exact h.1
  | columns h => exact h.1
  | subset h => exact h.1

theorem malformed_iff_of_unlabelled (h : Unlabelled line) :
    Malformed before line e ↔ .missingSeparator (before.length + 1) = e := by
  constructor
  · rintro (h' | ⟨h', -⟩ | ⟨h', hne, -⟩)
    · rfl
    · exact absurd (h.eq_empty h') (by decide)
    · exact absurd (h.eq_empty h') hne
  · rintro rfl
    exact .separator h

theorem malformed_iff_of_named (h : Named name line) (hne : name ≠ "") :
    Malformed before line e ↔
      (name = "columns" ∧ (∃ earlier ∈ before, Named "columns" earlier) ∧
        .duplicateColumns (before.length + 1) = e) ∨
      (name ≠ "columns" ∧ name ≠ "fixed" ∧ (¬ ∃ earlier ∈ before, Named "columns" earlier) ∧
        .missingColumns (before.length + 1) = e) := by
  constructor
  · rintro (h' | ⟨h', hearlier, hcolumns⟩ | ⟨h', -, hcolumns, hfixed, hnone⟩)
    · exact absurd (h'.eq_empty h) hne
    · exact .inl ⟨h.unique h', ⟨_, hearlier, hcolumns⟩, rfl⟩
    · obtain rfl := h.unique h'
      exact .inr ⟨hcolumns, hfixed, fun ⟨_, hmem, hnamed⟩ => hnone _ hmem hnamed, rfl⟩
  · rintro (⟨rfl, ⟨earlier, hmem, hnamed⟩, rfl⟩ | ⟨hcolumns, hfixed, hnone, rfl⟩)
    · exact .columns h hmem hnamed
    · exact .subset h hne hcolumns hfixed fun earlier hmem hnamed => hnone ⟨earlier, hmem, hnamed⟩

/-! ## Reading line by line -/

/-- Whether a draft knows that there were items on some lines. -/
def Draft.Follows (d : Draft) (before : List (List Char)) : Prop :=
  d.items?.isSome = true ↔ ∃ line ∈ before, Named "columns" line

/-- **One line.** After some lines, a line that is neither blank nor a comment is refused exactly if
it is malformed. -/
theorem Draft.Follows.add_eq_error_iff (hd : d.Follows before) (hline : ¬ IsIdle ['#'] line) :
    d.add (before.length + 1, Text.trim line) = .error e ↔ Malformed before line e := by
  rcases unlabelled_or_labelled hline with h | ⟨name, values, hlabel, hlabelled⟩
  · rw [malformed_iff_of_unlabelled h, Draft.add, h.ofLine?]
    simp
  · have hd : d.items?.isSome = true ↔ ∃ line ∈ before, Named "columns" line := hd
    rw [malformed_iff_of_named (hlabelled.named hlabel) hlabel.ne_empty, ← hd, Draft.add,
      (hlabelled.ofLine?_trim hlabel).2]
    by_cases hcolumns : name = "columns"
    · rw [Entry.labelled, if_pos hcolumns]
      cases d.items? <;> simp [hcolumns]
    · by_cases hfixed : name = "fixed"
      · simp [Entry.labelled, hfixed]
      · rw [Entry.labelled, if_neg hcolumns, if_neg hfixed]
        cases d.items? <;> simp [hcolumns, hfixed]

/-- What a line says that is accepted, and what it adds to a draft. -/
inductive Adds (line : List Char) (d : Draft) : Draft → Prop
  | columns {items : List String} : Labelled "columns" items line → d.items? = none →
      Adds line d { d with items? := some items }
  | fixed {names : List String} : Labelled "fixed" names line →
      Adds line d { d with fixed := d.fixed ++ names }
  | subset {name : String} {keys : List String} : IsLabel name.toList → name ≠ "columns" →
      name ≠ "fixed" → Labelled name keys line → d.items?.isSome = true →
      Adds line d { d with subsets := d.subsets ++ [(name, keys)] }

/-- **A line that is accepted says one of three things.** -/
theorem adds_of_add (hline : ¬ IsIdle ['#'] line)
    (h : d.add (number, Text.trim line) = .ok d') : Adds line d d' := by
  rcases unlabelled_or_labelled hline with hnone | ⟨name, values, hlabel, hlabelled⟩
  · rw [Draft.add, hnone.ofLine?] at h
    cases h
  · by_cases hcolumns : name = "columns"
    · subst hcolumns
      cases hitems : d.items? with
      | none =>
        rw [hlabelled.add_columns number hitems] at h
        cases h
        exact .columns hlabelled hitems
      | some items =>
        rw [Draft.add, (hlabelled.ofLine?_trim hlabel).2, Entry.labelled, if_pos rfl] at h
        simp [hitems] at h
    · by_cases hfixed : name = "fixed"
      · subst hfixed
        rw [hlabelled.add_fixed] at h
        cases h
        exact .fixed hlabelled
      · cases hitems : d.items? with
        | none =>
          rw [Draft.add, (hlabelled.ofLine?_trim hlabel).2, Entry.labelled, if_neg hcolumns,
            if_neg hfixed] at h
          simp [hitems] at h
        | some items =>
          have hsome : d.items?.isSome = true := by rw [hitems, Option.isSome_some]
          rw [hlabelled.add_subset hlabel hcolumns hfixed number hsome] at h
          cases h
          exact .subset hlabel hcolumns hfixed hlabelled hsome

theorem Adds.isSome_iff (h : Adds line d d') :
    d'.items?.isSome = true ↔ d.items?.isSome = true ∨ Named "columns" line := by
  cases h with
  | columns hline hnone => simp [hline.named isLabel_columns]
  | fixed hline =>
    have hnot : ¬ Named "columns" line := fun h =>
      absurd (h.unique (hline.named isLabel_fixed)) (by decide)
    simp [hnot]
  | subset hlabel hcolumns _ hline _ =>
    have hnot : ¬ Named "columns" line := fun h => hcolumns ((hline.named hlabel).unique h)
    simp [hnot]

/-- A line that is accepted leaves a draft that knows of it. -/
theorem Draft.Follows.adds (hd : d.Follows before) (h : Adds line d d') :
    d'.Follows (before ++ [line]) := by
  unfold Follows at hd ⊢
  rw [h.isSome_iff, hd]
  simp [or_and_right, exists_or]

/-- **Well-formed lines are all accepted.** Induction on the lines; the draft after some lines knows
whether there were items on them, and that is all that the next line depends on. -/
theorem WellFormed.foldlM_add (h : WellFormed ls) :
    ∃ d, (keptLines isSignificant 1 ls).foldlM Draft.add {} = .ok d ∧ d.Follows ls := by
  induction h with
  | nil => exact ⟨{}, rfl, by simp [Draft.Follows]⟩
  | @concat ls line _ hline ih =>
    obtain ⟨d, hfold, hd⟩ := ih
    rw [Text.keptLines_append, List.foldlM_append, hfold, ok_bind, Nat.add_comm]
    by_cases hidle : IsIdle ['#'] line
    · refine ⟨d, by rw [keptLines_idle hidle]; rfl, ?_⟩
      have hnot : ¬ Named "columns" line := fun h => h.1 hidle
      unfold Draft.Follows at hd ⊢
      simp [hd, or_and_right, exists_or, hnot]
    · cases hadd : d.add (ls.length + 1, Text.trim line) with
      | error e => exact absurd ((hd.add_eq_error_iff hidle).mp hadd) (hline e)
      | ok d' =>
        refine ⟨d', ?_, hd.adds (adds_of_add hidle hadd)⟩
        rw [keptLines_of_not_isIdle hidle, List.foldlM_cons, hadd]
        rfl

/-- **The first malformed line is the one that is reported.** -/
theorem FirstMalformed.foldlM_add (h : FirstMalformed ls e) :
    (keptLines isSignificant 1 ls).foldlM Draft.add {} = .error e := by
  obtain ⟨before, line, after, rfl, hbefore, hline⟩ := h
  obtain ⟨d, hfold, hd⟩ := hbefore.foldlM_add
  rw [Text.keptLines_append, List.foldlM_append, hfold, ok_bind,
    keptLines_of_not_isIdle hline.not_isIdle, List.foldlM_cons, Nat.add_comm,
    (hd.add_eq_error_iff hline.not_isIdle).mpr hline, error_bind]

/-! ## Well-formed texts -/

/-- **Of lines that are accepted the first one is idle or adds something.** -/
theorem adds_of_foldlM_add
    (h : (keptLines isSignificant number (line :: ls)).foldlM Draft.add d = .ok d') :
    (IsIdle ['#'] line ∧
      (keptLines isSignificant (number + 1) ls).foldlM Draft.add d = .ok d') ∨
    ∃ d₁, Adds line d d₁ ∧
      (keptLines isSignificant (number + 1) ls).foldlM Draft.add d₁ = .ok d' := by
  by_cases hidle : IsIdle ['#'] line
  · rw [keptLines_idle hidle] at h
    exact .inl ⟨hidle, h⟩
  · rw [keptLines_of_not_isIdle hidle, List.foldlM_cons] at h
    obtain ⟨d₁, hadd, hrest⟩ := bind_eq_ok.mp h
    exact .inr ⟨d₁, adds_of_add hidle hadd, hrest⟩

/-- The lines that are accepted once there are items fix some subsets and declare others. -/
theorem exists_body (hd : d.items?.isSome = true)
    (h : (keptLines isSignificant number ls).foldlM Draft.add d = .ok d') :
    ∃ subsets fixed, Body subsets fixed ls := by
  induction ls generalizing number d with
  | nil => exact ⟨[], [], .nil⟩
  | cons line ls ih =>
    rcases adds_of_foldlM_add h with ⟨hidle, hrest⟩ | ⟨d₁, hadds, hrest⟩
    · obtain ⟨subsets, fixed, hbody⟩ := ih hd hrest
      exact ⟨subsets, fixed, .idle hidle hbody⟩
    · obtain ⟨subsets, fixed, hbody⟩ := ih (hadds.isSome_iff.mpr (.inl hd)) hrest
      cases hadds with
      | columns _ hnone => simp [hnone] at hd
      | fixed hline => exact ⟨subsets, _, .fixed hline hbody⟩
      | subset hlabel hcolumns hfixed hline =>
        exact ⟨_, fixed, .subset hlabel hcolumns hfixed hline hbody⟩

/-- The lines that are accepted from the start on, with items on one of them, are those of a
declaration. -/
theorem exists_sheet (hd : d.items? = none)
    (h : (keptLines isSignificant number ls).foldlM Draft.add d = .ok d')
    (hd' : d'.items?.isSome = true) : ∃ declaration, Sheet declaration ls := by
  induction ls generalizing number d with
  | nil =>
    cases h
    simp [hd] at hd'
  | cons line ls ih =>
    rcases adds_of_foldlM_add h with ⟨hidle, hrest⟩ | ⟨d₁, hadds, hrest⟩
    · obtain ⟨declaration, hsheet⟩ := ih hd hrest
      exact ⟨declaration, .idle hidle hsheet⟩
    · cases hadds with
      | columns hline =>
        obtain ⟨subsets, fixed, hbody⟩ := exists_body rfl hrest
        exact ⟨_, .columns hline hbody⟩
      | @fixed names hline =>
        have hnone : { d with fixed := d.fixed ++ names : Draft }.items? = none := hd
        obtain ⟨⟨items, subsets, fixed⟩, hsheet⟩ := ih hnone hrest
        exact ⟨_, .fixed hline hsheet⟩
      | subset _ _ _ _ hsome => simp [hd] at hsome

theorem read_eq (text : String) : read text =
    (keptLines isSignificant 1 (Text.lines text.toList)).foldlM Draft.add {} >>= fun d =>
      match d.items? with
      | none => .error .noColumns
      | some items => (ofDeclaration ⟨items, d.subsets, d.fixed⟩).mapError .invalid := by
  have hlines : significantLines text = keptLines isSignificant 1 (Text.lines text.toList) :=
    (Text.keptLines_lines _ _).symm
  rw [read, readDeclaration, hlines]
  cases List.foldlM Draft.add {} (keptLines isSignificant 1 (Text.lines text.toList)) with
  | error e => rfl
  | ok d =>
    simp only [ok_bind]
    cases d.items? <;> rfl

theorem FirstMalformed.read_eq {text : String} (h : FirstMalformed (Text.lines text.toList) e) :
    read text = .error e := by
  rw [Family.read_eq, h.foldlM_add, error_bind]

theorem WellFormed.read_eq_noColumns {text : String} (h : WellFormed (Text.lines text.toList))
    (hcolumns : ¬ ∃ line ∈ Text.lines text.toList, Named "columns" line) :
    read text = .error .noColumns := by
  obtain ⟨d, hfold, hd⟩ := h.foldlM_add
  have hnone : d.items? = none := by
    have hnot : ¬ d.items?.isSome = true := fun h => hcolumns (hd.mp h)
    simpa using hnot
  rw [Family.read_eq, hfold, ok_bind, hnone]

/-- **Well-formed lines, one of which names the items, are those of a declaration,** and they are
read as it. -/
theorem WellFormed.read_eq {text : String} (h : WellFormed (Text.lines text.toList))
    (hcolumns : ∃ line ∈ Text.lines text.toList, Named "columns" line) :
    ∃ d, Sheet d (Text.lines text.toList) ∧ read text = (ofDeclaration d).mapError .invalid := by
  obtain ⟨d, hfold, hd⟩ := h.foldlM_add
  obtain ⟨declaration, hsheet⟩ := exists_sheet rfl hfold (hd.mpr hcolumns)
  refine ⟨declaration, hsheet, ?_⟩
  rw [Family.read_eq, hsheet.foldlM_add 1 []]
  rfl

/-- **Malformed lines come before everything else.** Of the malformed lines of a text the first one
is reported, and either there is one or all lines are well-formed. Where all are well-formed, the
items are missing exactly if no line is named for them, and else the text is a declaration and read
as it. So a declaration is called invalid only where no line is malformed and one names the items. -/
theorem read_blames_first (text : String) :
    let ls := Text.lines text.toList
    (∀ e, FirstMalformed ls e → read text = .error e) ∧
    (WellFormed ls ∨ ∃ e, FirstMalformed ls e) ∧
    (WellFormed ls → (read text = .error .noColumns ↔ ¬ ∃ line ∈ ls, Named "columns" line)) ∧
    (WellFormed ls → (∃ line ∈ ls, Named "columns" line) →
      ∃ d, Sheet d ls ∧ read text = (ofDeclaration d).mapError .invalid) ∧
    ∀ flaw, read text = .error (.invalid flaw) →
      WellFormed ls ∧ ∃ line ∈ ls, Named "columns" line := by
  intro ls
  refine ⟨fun e he => he.read_eq, wellFormed_or_firstMalformed ls, fun h => ⟨fun hread => ?_, ?_⟩,
    fun h hcolumns => h.read_eq hcolumns, fun flaw hread => ?_⟩
  · intro hcolumns
    obtain ⟨d, -, hd⟩ := h.read_eq hcolumns
    rw [hread] at hd
    cases hof : ofDeclaration d <;> rw [hof] at hd <;> cases hd
  · exact h.read_eq_noColumns
  · rcases wellFormed_or_firstMalformed ls with h | ⟨e, he⟩
    · refine ⟨h, ?_⟩
      by_contra hcolumns
      rw [h.read_eq_noColumns hcolumns] at hread
      cases hread
    · rw [he.read_eq] at hread
      obtain ⟨before, line, after, -, -, hline⟩ := he
      cases hread
      cases hline

end Family

end ExactCover
