import ExactCover.Family.Reader
import ExactCover.Proofs.Steps
import ExactCover.Proofs.Text.Lines

/-!
# Declarations are read as they are written

A text declares a family line by line. What it means is said here without the reader: there are
lines that name the items, fix subsets or declare one, each a name, a colon and some words, with
blanks around all of them. A text with these lines is read as the declaration that they come to,
and it is the same family, or the same flaw, as that of the declaration.

Only the name ends at the first colon, so that the words after it can have colons too. A name that
can stand there has no colon and is no comment, which is seen once the blanks around the line are
gone.

* **`Family.Labelled`**: a line with a name and some words, and **`Labelled.ofLine?_trim`**: it is
  read as these.
* **`Family.Body`**, **`Family.Sheet`**: the lines of a declaration.
* **`Body.foldlM_add`**, **`Sheet.foldlM_add`**: what they add to a draft.
* **`Family.exists_text`**: a declaration made of names and words can be written down.
* **`Family.read_sheet`**: the result.
-/

namespace ExactCover

namespace Family

open Text (IsGap IsWord IsTight IsIdle Spaced Padded HasLines keptLines)

/-! ## One line -/

/-- Whether a name can stand at the start of a line, in front of a colon. -/
structure IsLabel (name : List Char) : Prop where
  ne_nil : name ≠ []
  tight : IsTight name
  colon : ':' ∉ name
  mark : '#' ∉ name.head?

instance (name : List Char) : Decidable (IsLabel name) :=
  decidable_of_iff (name ≠ [] ∧ IsTight name ∧ ':' ∉ name ∧ '#' ∉ name.head?)
    ⟨fun ⟨hne, htight, hcolon, hmark⟩ => ⟨hne, htight, hcolon, hmark⟩,
      fun h => ⟨h.ne_nil, h.tight, h.colon, h.mark⟩⟩

/-- A line with a name, a colon and some words, and blanks around all of them. -/
def Labelled (name : String) (values : List String) (line : List Char) : Prop :=
  ∃ before after rest, IsGap before ∧ IsGap after ∧ Spaced (values.map String.toList) rest ∧
    line = before ++ (name.toList ++ (after ++ ':' :: rest))

/-- Without the blanks around it such a line still has its name, its colon and its words. -/
theorem Labelled.trim_eq {name : String} {values : List String} {line : List Char}
    (h : Labelled name values line) (hname : IsLabel name.toList) :
    ∃ after rest, IsGap after ∧ Text.words rest = values.map String.toList ∧
      Text.trim line = name.toList ++ (after ++ ':' :: rest) := by
  obtain ⟨before, after, rest, hbefore, hafter, hvalues, rfl⟩ := h
  obtain ⟨core, gap, rfl, hgap, hlast⟩ := Text.exists_gap rest
  have htight : IsTight (name.toList ++ (after ++ ':' :: core)) := by
    constructor
    · rw [List.head?_append_of_ne_nil _ hname.ne_nil]
      exact hname.tight.head
    · rw [List.getLast?_append_of_ne_nil _ (by simp), List.getLast?_append_of_ne_nil _ (by simp)]
      cases core with
      | nil =>
        have hcolon : Text.isBlank ':' = false := by decide
        simpa using hcolon
      | cons c core => simpa using hlast
  refine ⟨after, core, hafter, ?_, Padded.trim_eq ⟨before, gap, hbefore, hgap, ?_⟩ htight⟩
  · rw [← Text.words_append_gap hgap]
    exact hvalues.words_eq
  · simp only [List.append_assoc, List.cons_append]

/-- What a name in front of a colon makes of the words after it. -/
def Entry.labelled (name : String) (values : List String) : Entry :=
  if name = "columns" then .columns values
  else if name = "fixed" then .fixed values
  else .subset name values

theorem colon_notMem_of_isGap {gap : List Char} (h : IsGap gap) : ':' ∉ gap := fun hmem => by
  cases h _ hmem

/-- So the first colon of a line is the one after its name. -/
theorem IsLabel.colon_notMem {name after : List Char} (h : IsLabel name) (hafter : IsGap after) :
    ':' ∉ name ++ after := fun hcolon =>
  (List.mem_append.mp hcolon).elim h.colon (colon_notMem_of_isGap hafter)

/-- Blanks before the colon are not part of the name. -/
theorem IsLabel.trim_append {name after : List Char} (h : IsLabel name) (hafter : IsGap after) :
    Text.trim (name ++ after) = name :=
  Padded.trim_eq ⟨[], after, by simp [IsGap], hafter, rfl⟩ h.tight

/-- **A line is read as its name and its words.** -/
theorem Labelled.ofLine?_trim {name : String} {values : List String} {line : List Char}
    (h : Labelled name values line) (hname : IsLabel name.toList) :
    isSignificant (Text.trim line) = true ∧
      Entry.ofLine? (Text.trim line) = some (Entry.labelled name values) := by
  obtain ⟨after, rest, hafter, hwords, htrim⟩ := h.trim_eq hname
  have hfront := hname.colon_notMem hafter
  have hdrop : (name.toList ++ (after ++ ':' :: rest)).dropWhile (· ≠ ':') = ':' :: rest := by
    rw [← List.append_assoc, Text.dropWhile_append_cons hfront]
  have htake : (name.toList ++ (after ++ ':' :: rest)).takeWhile (· ≠ ':') =
      name.toList ++ after := by
    rw [← List.append_assoc, Text.takeWhile_append_cons hfront]
  have hvalues : (Text.words rest).map String.ofList = values := by
    rw [hwords, List.map_map]
    exact (List.map_congr_left fun value _ => String.ofList_toList).trans (List.map_id _)
  rw [htrim]
  constructor
  · have hhead : (name.toList ++ (after ++ ':' :: rest)).head? = name.toList.head? :=
      List.head?_append_of_ne_nil _ hname.ne_nil
    have hmark : name.toList.head? ≠ some '#' := hname.mark
    rw [isSignificant, hhead]
    simp [hmark]
  · have hne : name ≠ "" := fun heq => hname.ne_nil (by simp [heq])
    simp only [Entry.ofLine?, hdrop, htake, hvalues, hname.trim_append hafter,
      String.ofList_toList, Entry.labelled]
    split
    · contradiction
    · rfl
    · rfl
    · next hcolumns hfixed => rw [if_neg hcolumns, if_neg hfixed]

/-! ## The lines of a declaration -/

/-- Lines that fix some subsets and declare others, in order. -/
inductive Body : List (String × List String) → List String → List (List Char) → Prop
  | nil : Body [] [] []
  | idle {subsets : List (String × List String)} {fixed : List String} {line : List Char}
      {ls : List (List Char)} : IsIdle ['#'] line → Body subsets fixed ls →
      Body subsets fixed (line :: ls)
  | fixed {subsets : List (String × List String)} {names fixed : List String} {line : List Char}
      {ls : List (List Char)} : Labelled "fixed" names line → Body subsets fixed ls →
      Body subsets (names ++ fixed) (line :: ls)
  | subset {subsets : List (String × List String)} {fixed keys : List String} {name : String}
      {line : List Char} {ls : List (List Char)} : IsLabel name.toList → name ≠ "columns" →
      name ≠ "fixed" → Labelled name keys line → Body subsets fixed ls →
      Body ((name, keys) :: subsets) fixed (line :: ls)

/-- The lines of a declaration: one names its items, and those that declare subsets come after
it. -/
inductive Sheet : Declaration → List (List Char) → Prop
  | columns {items : List String} {subsets : List (String × List String)} {fixed : List String}
      {line : List Char} {ls : List (List Char)} : Labelled "columns" items line →
      Body subsets fixed ls → Sheet ⟨items, subsets, fixed⟩ (line :: ls)
  | idle {d : Declaration} {line : List Char} {ls : List (List Char)} : IsIdle ['#'] line →
      Sheet d ls → Sheet d (line :: ls)
  | fixed {items : List String} {subsets : List (String × List String)}
      {names fixed : List String} {line : List Char} {ls : List (List Char)} :
      Labelled "fixed" names line → Sheet ⟨items, subsets, fixed⟩ ls →
      Sheet ⟨items, subsets, names ++ fixed⟩ (line :: ls)

/-- A line means something if it is neither blank nor a comment. -/
theorem isSignificant_trim {line : List Char} :
    isSignificant (Text.trim line) = true ↔ ¬ IsIdle ['#'] line := by
  have hmarks : ∀ mark ∈ ['#'], Text.isBlank mark = false :=
    List.forall_mem_singleton.mpr (by decide)
  rw [Text.isIdle_iff_trim hmarks]
  simp [isSignificant]

/-- A line that means nothing is passed over, but counted. -/
theorem keptLines_idle {line : List Char} (h : IsIdle ['#'] line) (number : Nat)
    (ls : List (List Char)) :
    keptLines isSignificant number (line :: ls) = keptLines isSignificant (number + 1) ls := by
  rw [keptLines, if_neg fun hkept => isSignificant_trim.mp hkept h]

theorem keptLines_of_not_isIdle {line : List Char} (h : ¬ IsIdle ['#'] line) (number : Nat)
    (ls : List (List Char)) : keptLines isSignificant number (line :: ls) =
      (number, Text.trim line) :: keptLines isSignificant (number + 1) ls := by
  rw [keptLines, if_pos (isSignificant_trim.mpr h)]

theorem isLabel_columns : IsLabel "columns".toList := by decide

theorem isLabel_fixed : IsLabel "fixed".toList := by decide

namespace Labelled

variable {name : String} {names items keys values : List String} {line : List Char}

theorem keptLines_cons (h : Labelled name values line) (hname : IsLabel name.toList) (number : Nat)
    (ls : List (List Char)) : keptLines isSignificant number (line :: ls) =
      (number, Text.trim line) :: keptLines isSignificant (number + 1) ls := by
  rw [keptLines, (h.ofLine?_trim hname).1, if_pos rfl]

/-- Subsets can be fixed on any number of lines. -/
theorem add_fixed (h : Labelled "fixed" names line) (number : Nat) (d : Draft) :
    d.add (number, Text.trim line) = .ok { d with fixed := d.fixed ++ names } := by
  rw [Draft.add, (h.ofLine?_trim isLabel_fixed).2]
  rfl

/-- The items are taken where none were named before. -/
theorem add_columns (h : Labelled "columns" items line) (number : Nat) {d : Draft}
    (hd : d.items? = none) :
    d.add (number, Text.trim line) = .ok { d with items? := some items } := by
  rw [Draft.add, (h.ofLine?_trim isLabel_columns).2]
  simp [Entry.labelled, hd]

/-- Once the items are named, subsets can be declared. -/
theorem add_subset (h : Labelled name keys line) (hname : IsLabel name.toList)
    (hcolumns : name ≠ "columns") (hfixed : name ≠ "fixed") (number : Nat) {d : Draft}
    (hd : d.items?.isSome = true) :
    d.add (number, Text.trim line) = .ok { d with subsets := d.subsets ++ [(name, keys)] } := by
  rw [Draft.add, (h.ofLine?_trim hname).2]
  have hitems : d.items?.isNone = false := by rw [Option.isNone_eq_false_iff, hd]
  simp [Entry.labelled, hcolumns, hfixed, hitems]

end Labelled

/-- **What the lines after the items add to a draft.** Induction on the lines. -/
theorem Body.foldlM_add {subsets : List (String × List String)} {fixed : List String}
    {ls : List (List Char)} (h : Body subsets fixed ls) (number : Nat) {d : Draft}
    (hd : d.items?.isSome = true) :
    (keptLines isSignificant number ls).foldlM Draft.add d =
      .ok { d with subsets := d.subsets ++ subsets, fixed := d.fixed ++ fixed } := by
  induction h generalizing number d with
  | nil => simp [keptLines, pure_eq_ok]
  | idle hidle _ ih => rw [keptLines_idle hidle, ih _ hd]
  | @fixed _ names _ _ _ hline _ ih =>
    have hrest := ih (number + 1) (d := { d with fixed := d.fixed ++ names }) hd
    rw [hline.keptLines_cons isLabel_fixed, List.foldlM_cons, hline.add_fixed, ok_bind, hrest,
      List.append_assoc]
  | @subset _ _ keys name _ _ hname hcolumns hfixed hline _ ih =>
    have hrest := ih (number + 1) (d := { d with subsets := d.subsets ++ [(name, keys)] }) hd
    rw [hline.keptLines_cons hname, List.foldlM_cons, hline.add_subset hname hcolumns hfixed _ hd,
      ok_bind, hrest, List.append_assoc, List.singleton_append]

/-- **What the lines of a declaration come to.** Induction on the lines up to the items. -/
theorem Sheet.foldlM_add {d : Declaration} {ls : List (List Char)} (h : Sheet d ls) (number : Nat)
    (fixed : List String) :
    (keptLines isSignificant number ls).foldlM Draft.add { fixed } =
      .ok ⟨some d.items, d.subsets, fixed ++ d.fixed⟩ := by
  induction h generalizing number fixed with
  | columns hline hbody =>
    rw [hline.keptLines_cons isLabel_columns, List.foldlM_cons, hline.add_columns _ rfl, ok_bind,
      hbody.foldlM_add _ rfl, List.nil_append]
  | idle hidle _ ih => rw [keptLines_idle hidle, ih]
  | fixed hline _ ih =>
    rw [hline.keptLines_cons isLabel_fixed, List.foldlM_cons, hline.add_fixed, ok_bind, ih,
      List.append_assoc]

/-- What a sheet declares is read from every text that has its lines. -/
theorem readDeclaration_sheet {d : Declaration} {ls : List (List Char)} {text : String}
    (h : Sheet d ls) (htext : HasLines ls text.toList) : readDeclaration text = .ok d := by
  rw [readDeclaration, significantLines, htext.keptLines_numberedLines (by decide),
    h.foldlM_add 1 []]
  rfl

/-! ## Writing declarations -/

/-- Whether a declaration can be written down: its items and the names that it fixes are words, and
the name of a subset can stand in front of a colon and means nothing else there. -/
structure IsWritable (d : Declaration) : Prop where
  items : ∀ item ∈ d.items, IsWord item.toList
  fixed : ∀ name ∈ d.fixed, IsWord name.toList
  keys : ∀ s ∈ d.subsets, ∀ key ∈ s.2, IsWord key.toList
  names : ∀ s ∈ d.subsets, IsLabel s.1.toList ∧ '\n' ∉ s.1.toList ∧ s.1 ≠ "columns" ∧ s.1 ≠ "fixed"

/-- A name, a colon, and some words with one space between any two of them. -/
def label (name : String) (values : List String) : List Char :=
  name.toList ++ ':' :: [' '].intercalate (values.map String.toList)

variable {name : String} {values : List String}

theorem labelled_label (h : ∀ value ∈ values, IsWord value.toList) :
    Labelled name values (label name values) := by
  refine ⟨[], [], _, by decide, by decide, Text.spaced_intercalate fun word hword => ?_, rfl⟩
  obtain ⟨value, hvalue, rfl⟩ := List.mem_map.mp hword
  exact h value hvalue

theorem notMem_label (hname : '\n' ∉ name.toList) (h : ∀ value ∈ values, IsWord value.toList) :
    '\n' ∉ label name values := by
  have hvalues : '\n' ∉ [' '].intercalate (values.map String.toList) := by
    refine Text.notMem_intercalate (by decide) fun word hword hmem => ?_
    obtain ⟨value, hvalue, rfl⟩ := List.mem_map.mp hword
    -- a line feed is a blank
    cases (h value hvalue).solid _ hmem
  simp [label, hname, hvalues]

/-- Subsets, and the names of the fixed ones after them, as lines with one blank between two
words. -/
theorem body_labels {subsets : List (String × List String)} {fixed : List String}
    (hkeys : ∀ s ∈ subsets, ∀ key ∈ s.2, IsWord key.toList)
    (hnames : ∀ s ∈ subsets,
      IsLabel s.1.toList ∧ '\n' ∉ s.1.toList ∧ s.1 ≠ "columns" ∧ s.1 ≠ "fixed")
    (hfixed : ∀ name ∈ fixed, IsWord name.toList) :
    Body subsets fixed (subsets.map (fun s => label s.1 s.2) ++ [label "fixed" fixed]) := by
  induction subsets with
  | nil => simpa using Body.fixed (labelled_label hfixed) .nil
  | cons s subsets ih =>
    obtain ⟨hkey, hkeys⟩ := List.forall_mem_cons.mp hkeys
    obtain ⟨⟨hlabel, -, hcolumns, hfixed'⟩, hnames⟩ := List.forall_mem_cons.mp hnames
    exact Body.subset hlabel hcolumns hfixed' (labelled_label hkey) (ih hkeys hnames)

/-- Every declaration that can be written down is written down in some text. -/
theorem exists_text {d : Declaration} (h : IsWritable d) :
    ∃ (ls : List (List Char)) (text : String), Sheet d ls ∧ HasLines ls text.toList := by
  let ls := label "columns" d.items ::
    (d.subsets.map (fun s => label s.1 s.2) ++ [label "fixed" d.fixed])
  have hfree : ∀ line ∈ ls, '\n' ∉ line := by
    refine List.forall_mem_cons.mpr ⟨notMem_label (by decide) h.items, fun line hline => ?_⟩
    rcases List.mem_append.mp hline with hline | hline
    · obtain ⟨s, hs, rfl⟩ := List.mem_map.mp hline
      exact notMem_label (h.names s hs).2.1 (h.keys s hs)
    · rw [List.mem_singleton.mp hline]
      exact notMem_label (by decide) h.fixed
  refine ⟨ls, String.ofList (ls.flatMap (· ++ ['\n'])),
    .columns (labelled_label h.items) (body_labels h.keys h.names h.fixed), ?_⟩
  rw [String.toList_ofList]
  exact Text.hasLines_flatMap hfree

/-- **A text means the declaration that is written down in it.** There is a text for every
declaration whose items and fixed names are words and whose subsets have names that can stand in
front of a colon. And every text with the lines of a declaration, whatever blanks and comments it
has and however its lines end, is read as the family of the declaration, or as invalid, with the
flaw of the declaration. -/
theorem read_sheet :
    (∀ d : Declaration, IsWritable d →
      ∃ (ls : List (List Char)) (text : String), Sheet d ls ∧ HasLines ls text.toList) ∧
    ∀ {d : Declaration} {ls : List (List Char)} {text : String}, Sheet d ls →
      HasLines ls text.toList → read text = (ofDeclaration d).mapError .invalid := by
  refine ⟨fun d h => exists_text h, fun h htext => ?_⟩
  rw [read, readDeclaration_sheet h htext]
  rfl

/-- An item with a colon in it and a name with a space in it can be written down, and they are read
from a text with a fixed subset before the items, a comment, blanks around everything, both kinds of
line ends, and none at the end. -/
theorem read_sheet_mixed :
    (∃ (ls : List (List Char)) (text : String),
      Sheet ⟨["A", "B:1"], [("a a", ["A"]), ("b", ["B:1", "A"])], ["b"]⟩ ls ∧
        HasLines ls text.toList) ∧
    read "fixed: b\r\n\t# none\n columns :A\tB:1\r\n\na a:A\n b: B:1 A " =
      (ofDeclaration ⟨["A", "B:1"], [("a a", ["A"]), ("b", ["B:1", "A"])], ["b"]⟩).mapError
        .invalid := by
  have hnil : IsGap [] := by decide
  have hspace : IsGap [' '] := by decide
  have hitems : Spaced (["A", "B:1"].map String.toList) "A\tB:1".toList :=
    .cons hnil (by decide) (by decide : Text.isBlank '\t' = true) (.last hnil (by decide))
  have hkeys : Spaced (["B:1", "A"].map String.toList) " B:1 A ".toList :=
    .cons hspace (by decide) (by decide : Text.isBlank ' ' = true)
      (.cons hnil (by decide) (by decide : Text.isBlank ' ' = true) (.gap hnil))
  have hfixed : Spaced (["b"].map String.toList) " b".toList := .last hspace (by decide)
  have hkey : Spaced (["A"].map String.toList) "A".toList := .last hnil (by decide)
  have hsheet : Sheet ⟨["A", "B:1"], [("a a", ["A"]), ("b", ["B:1", "A"])], ["b"]⟩
      ["fixed: b".toList, "\t# none".toList, " columns :A\tB:1".toList, [], "a a:A".toList,
        " b: B:1 A ".toList] := by
    refine .fixed ⟨[], [], _, hnil, hnil, hfixed, rfl⟩ ?_
    refine .idle (.inr ⟨['\t'], by decide, '#', by decide, _, rfl⟩) ?_
    refine .columns ⟨[' '], [' '], _, hspace, hspace, hitems, rfl⟩ ?_
    refine .idle (.inl hnil) ?_
    refine .subset (by decide) (by decide) (by decide)
      ⟨[], [], _, hnil, hnil, hkey, rfl⟩ ?_
    exact .subset (by decide) (by decide) (by decide) ⟨[' '], [], _, hspace, hnil, hkeys, rfl⟩ .nil
  refine ⟨read_sheet.1 _ ⟨by decide, by decide, by decide, by decide⟩, read_sheet.2 hsheet ?_⟩
  exact .carriageReturn (by decide) (.lineFeed (by decide) (.carriageReturn (by decide)
    (.lineFeed (by decide) (.lineFeed (by decide) (.last (by decide))))))

end Family

end ExactCover
