import ExactCover.Text.Blank
import Mathlib.Data.List.DropRight

/-!
# Words and lines of a text

A text that was put together from words with blanks between them, or from lines with line ends
between them, comes apart again into the same words and lines. Blanks at the ends of a line do not
matter, nor does it matter how a line ends; a line feed is all that a line cannot hold.

* **`Text.pieces`**: what stands between characters of some kind, and **`pieces_intercalate`**.
* **`Text.Spaced`**: some words with blanks around them, and **`Spaced.words_eq`**; every text is
  its own words with blanks around them (**`Text.spaced_words`**).
* **`Text.Padded`**: a text with blanks around it, and **`Padded.trim_eq`**; every text is what is
  left of it by `trim`, with blanks around that (**`Text.trim_spec`**).
* **`Text.IsIdle`**: a line that is blank or a comment, and **`Text.isIdle_iff_trim`**.
* **`Text.HasLines`**: some lines with their ends, and **`HasLines.keptLines_numberedLines`**: up to
  the blanks around them, the lines that are read are these.
-/

namespace ExactCover.Text

/-! ## Pieces -/

/-- A text is cut at each character of the kind on its own. -/
theorem cut_append {p : Char → Bool} {c : Char} (hc : p c = true) (cs rest : List Char) :
    cut p (cs ++ c :: rest) = cut p cs ++ cut p rest := by
  induction cs with
  | nil => simp [cut, hc]
  | cons d cs ih =>
    rw [List.cons_append, cut, cut, ih]
    split_ifs
    · rfl
    · cases hcut : cut p cs with
      | nil => exact absurd hcut (cut_ne_nil p cs)
      | cons piece pieces => rfl

theorem cut_of_forall {p : Char → Bool} {cs : List Char} (h : ∀ c ∈ cs, p c = false) :
    cut p cs = [cs] := by
  induction cs with
  | nil => rfl
  | cons c cs ih =>
    obtain ⟨hc, hcs⟩ := List.forall_mem_cons.mp h
    rw [cut, ih hcs, hc]
    rfl

/-- **What was put together with one character between any two parts is cut there again.** Induction
on the parts. -/
theorem cut_intercalate {p : Char → Bool} {c : Char} (hc : p c = true) {parts : List (List Char)}
    (hne : parts ≠ []) (h : ∀ part ∈ parts, ∀ d ∈ part, p d = false) :
    cut p ([c].intercalate parts) = parts := by
  induction parts with
  | nil => exact absurd rfl hne
  | cons part parts ih =>
    obtain ⟨hpart, hparts⟩ := List.forall_mem_cons.mp h
    cases parts with
    | nil => rw [List.intercalate_singleton, cut_of_forall hpart]
    | cons part' parts =>
      rw [List.intercalate_cons_cons, List.append_assoc, List.singleton_append, cut_append hc,
        cut_of_forall hpart, ih (List.cons_ne_nil _ _) hparts, List.singleton_append]

theorem takeWhile_append_cons {c : Char} {front rest : List Char} (h : c ∉ front) :
    (front ++ c :: rest).takeWhile (· ≠ c) = front := by
  rw [List.takeWhile_append_of_pos fun d hd => decide_eq_true (ne_of_mem_of_not_mem hd h)]
  simp

theorem dropWhile_append_cons {c : Char} {front rest : List Char} (h : c ∉ front) :
    (front ++ c :: rest).dropWhile (· ≠ c) = c :: rest := by
  rw [List.dropWhile_append_of_pos fun d hd => decide_eq_true (ne_of_mem_of_not_mem hd h)]
  simp

/-- What stands in front of the first character of a kind. -/
theorem front_unique {c : Char} {front front' rest rest' : List Char} (h : c ∉ front)
    (h' : c ∉ front') (heq : front ++ c :: rest = front' ++ c :: rest') : front = front' := by
  have htake : (front ++ c :: rest).takeWhile (· ≠ c) = front := takeWhile_append_cons h
  rw [← htake, heq, takeWhile_append_cons h']

/-- The pieces of a text between the characters of some kind, without the empty ones. -/
def pieces (p : Char → Bool) (cs : List Char) : List (List Char) := (cut p cs).filter (· ≠ [])

section Pieces

variable {p : Char → Bool} {c : Char}

@[simp] theorem pieces_nil : pieces p [] = [] := rfl

/-- Pieces do not go across a character of the kind. -/
theorem pieces_append (hc : p c = true) (cs rest : List Char) :
    pieces p (cs ++ c :: rest) = pieces p cs ++ pieces p rest := by
  rw [pieces, cut_append hc, List.filter_append]
  rfl

/-- In front of a text such characters add no piece. -/
theorem pieces_gap_append {gap : List Char} (hgap : ∀ c ∈ gap, p c = true) (cs : List Char) :
    pieces p (gap ++ cs) = pieces p cs := by
  induction gap with
  | nil => rfl
  | cons c gap ih =>
    obtain ⟨hc, hgap⟩ := List.forall_mem_cons.mp hgap
    have hstep : pieces p ([] ++ c :: (gap ++ cs)) = pieces p (gap ++ cs) := pieces_append hc [] _
    exact hstep.trans (ih hgap)

theorem pieces_of_solid {cs : List Char} (hne : cs ≠ []) (hsolid : ∀ c ∈ cs, p c = false) :
    pieces p cs = [cs] := by
  rw [pieces, cut_of_forall hsolid]
  simp [hne]

/-- So what was put together has the pieces of its parts. -/
theorem pieces_intercalate (hc : p c = true) (parts : List (List Char)) :
    pieces p ([c].intercalate parts) = parts.flatMap (pieces p) := by
  induction parts with
  | nil => rfl
  | cons part parts ih =>
    cases parts with
    | nil => simp
    | cons part' parts =>
      rw [List.intercalate_cons_cons, List.append_assoc, List.singleton_append, pieces_append hc,
        ih]
      rfl

theorem mem_of_mem_intercalate {sep : List Char} {parts : List (List Char)}
    (h : c ∈ sep.intercalate parts) : c ∈ sep ∨ ∃ part ∈ parts, c ∈ part := by
  induction parts with
  | nil => exact absurd h List.not_mem_nil
  | cons part parts ih =>
    cases parts with
    | nil => exact .inr ⟨part, by simp, by simpa using h⟩
    | cons part' parts =>
      rw [List.intercalate_cons_cons, List.mem_append, List.mem_append] at h
      rcases h with (h | h) | h
      · exact .inr ⟨part, by simp, h⟩
      · exact .inl h
      · exact (ih h).imp_right fun ⟨part, hpart, hc⟩ => ⟨part, List.mem_cons_of_mem _ hpart, hc⟩

/-- Parts of one length, and one character between any two of them. -/
theorem length_intercalate {n : Nat} {parts : List (List Char)} (hne : parts ≠ [])
    (h : ∀ part ∈ parts, part.length = n) :
    ([c].intercalate parts).length + 1 = parts.length * (n + 1) := by
  induction parts with
  | nil => exact absurd rfl hne
  | cons part parts ih =>
    obtain ⟨hpart, hparts⟩ := List.forall_mem_cons.mp h
    cases parts with
    | nil => simp [hpart]
    | cons part' parts =>
      have hrest := ih (List.cons_ne_nil _ _) hparts
      have hcount : (part :: part' :: parts).length = (part' :: parts).length + 1 := rfl
      rw [List.intercalate_cons_cons, List.length_append, Nat.add_assoc, hrest, List.length_append,
        hpart, List.length_singleton, hcount, Nat.succ_mul, Nat.add_comm]

end Pieces

/-! ## Words -/

/-- Whether a text has nothing but blanks. -/
def IsGap (cs : List Char) : Prop := ∀ c ∈ cs, isBlank c = true

/-- Whether a text is a word: it is not empty and has no blanks. -/
structure IsWord (cs : List Char) : Prop where
  ne_nil : cs ≠ []
  solid : ∀ c ∈ cs, isBlank c = false

-- decided on the text itself, and not on all characters that there are
instance (cs : List Char) : Decidable (IsGap cs) :=
  decidable_of_iff (cs.all isBlank = true) List.all_eq_true

instance (cs : List Char) : Decidable (IsWord cs) :=
  decidable_of_iff (cs ≠ [] ∧ cs.all (isBlank · = false) = true)
    ⟨fun ⟨hne, hsolid⟩ => ⟨hne, by simpa using hsolid⟩,
      fun h => ⟨h.ne_nil, by simpa using h.solid⟩⟩

theorem words_append {c : Char} (hc : isBlank c = true) (cs rest : List Char) :
    words (cs ++ c :: rest) = words cs ++ words rest := pieces_append hc cs rest

theorem words_of_isWord {word : List Char} (h : IsWord word) : words word = [word] :=
  pieces_of_solid h.ne_nil h.solid

/-- Blanks at the end add no word. -/
theorem words_append_gap {gap : List Char} (hgap : IsGap gap) (cs : List Char) :
    words (cs ++ gap) = words cs := by
  induction gap generalizing cs with
  | nil => rw [List.append_nil]
  | cons c gap ih =>
    obtain ⟨hc, hgap⟩ := List.forall_mem_cons.mp hgap
    have hnil : words ([] ++ gap) = [] := ih hgap []
    rw [words_append hc, ← List.nil_append gap, hnil, List.append_nil]

theorem words_gap_append {gap : List Char} (hgap : IsGap gap) (cs : List Char) :
    words (gap ++ cs) = words cs := pieces_gap_append hgap cs

/-- Some words with blanks around them, at least one between two of them. -/
inductive Spaced : List (List Char) → List Char → Prop
  | gap {gap : List Char} : IsGap gap → Spaced [] gap
  | last {gap word : List Char} : IsGap gap → IsWord word → Spaced [word] (gap ++ word)
  | cons {gap word rest : List Char} {c : Char} {ws : List (List Char)} : IsGap gap → IsWord word →
      isBlank c = true → Spaced ws rest → Spaced (word :: ws) (gap ++ (word ++ c :: rest))

/-- **Words that are put together come apart again.** -/
theorem Spaced.words_eq {ws : List (List Char)} {cs : List Char} (h : Spaced ws cs) :
    words cs = ws := by
  induction h with
  | gap hgap => exact words_append_gap hgap []
  | last hgap hword => rw [words_gap_append hgap, words_of_isWord hword]
  | cons hgap hword hc _ ih =>
    rw [words_gap_append hgap, words_append hc, words_of_isWord hword, ih, List.singleton_append]

theorem Spaced.blank_cons {ws : List (List Char)} {cs : List Char} {c : Char}
    (h : Spaced ws cs) (hc : isBlank c = true) : Spaced ws (c :: cs) := by
  cases h with
  | gap hgap => exact .gap (List.forall_mem_cons.mpr ⟨hc, hgap⟩)
  | last hgap hword => exact .last (List.forall_mem_cons.mpr ⟨hc, hgap⟩) hword
  | cons hgap hword hb hrest => exact .cons (List.forall_mem_cons.mpr ⟨hc, hgap⟩) hword hb hrest

theorem IsWord.cons {word : List Char} {c : Char} (h : IsWord word) (hc : isBlank c = false) :
    IsWord (c :: word) :=
  ⟨List.cons_ne_nil c word, List.forall_mem_cons.mpr ⟨hc, h.solid⟩⟩

/-- A character that is no blank starts a word of its own in front of a blank, and else belongs to
the first word. -/
theorem Spaced.solid_cons {ws : List (List Char)} {cs : List Char} {c : Char}
    (h : Spaced ws cs) (hc : isBlank c = false) : ∃ ws', Spaced ws' (c :: cs) := by
  have hnil : IsGap [] := by simp [IsGap]
  have hword : IsWord [c] := ⟨List.cons_ne_nil c [], by simpa using hc⟩
  cases h with
  | gap hgap =>
    cases cs with
    | nil => exact ⟨_, .last hnil hword⟩
    | cons b gap =>
      obtain ⟨hb, hgap⟩ := List.forall_mem_cons.mp hgap
      exact ⟨_, .cons hnil hword hb (.gap hgap)⟩
  | @last gap word hgap hlast =>
    cases gap with
    | nil => exact ⟨_, .last hnil (hlast.cons hc)⟩
    | cons b gap =>
      obtain ⟨hb, hgap⟩ := List.forall_mem_cons.mp hgap
      exact ⟨_, .cons hnil hword hb (.last hgap hlast)⟩
  | @cons gap word rest d ws hgap hfirst hd hrest =>
    cases gap with
    | nil => exact ⟨_, .cons hnil (hfirst.cons hc) hd hrest⟩
    | cons b gap =>
      obtain ⟨hb, hgap⟩ := List.forall_mem_cons.mp hgap
      exact ⟨_, .cons hnil hword hb (.cons hgap hfirst hd hrest)⟩

/-- **Every text consists of its words, with blanks around them.** -/
theorem spaced_words (cs : List Char) : Spaced (words cs) cs := by
  have hspaced : ∃ ws, Spaced ws cs := by
    induction cs with
    | nil => exact ⟨[], .gap (by simp [IsGap])⟩
    | cons c cs ih =>
      obtain ⟨ws, hws⟩ := ih
      cases hc : isBlank c with
      | false => exact hws.solid_cons hc
      | true => exact ⟨ws, hws.blank_cons hc⟩
  obtain ⟨ws, hws⟩ := hspaced
  rwa [hws.words_eq]

/-- Words with one space between any two of them. -/
theorem spaced_intercalate {ws : List (List Char)} (h : ∀ word ∈ ws, IsWord word) :
    Spaced ws ([' '].intercalate ws) := by
  have hnil : IsGap [] := by simp [IsGap]
  induction ws with
  | nil => exact .gap hnil
  | cons word ws ih =>
    obtain ⟨hword, hws⟩ := List.forall_mem_cons.mp h
    cases ws with
    | nil => simpa using Spaced.last hnil hword
    | cons word' ws =>
      have hcons := Spaced.cons hnil hword (c := ' ') (by decide) (ih hws)
      rw [List.intercalate_cons_cons]
      simpa using hcons

/-! ## Blanks at the ends -/

/-- Whether a text has no blank at its start and none at its end. -/
structure IsTight (cs : List Char) : Prop where
  head : ∀ c ∈ cs.head?, isBlank c = false
  last : ∀ c ∈ cs.getLast?, isBlank c = false

instance (cs : List Char) : Decidable (IsTight cs) :=
  decidable_of_iff
    (cs.head?.all (isBlank · = false) = true ∧ cs.getLast?.all (isBlank · = false) = true)
    (by
      simp only [Option.all_eq_true, decide_eq_true_eq]
      exact ⟨fun ⟨hhead, hlast⟩ => ⟨hhead, hlast⟩, fun h => ⟨h.head, h.last⟩⟩)

theorem IsWord.isTight {word : List Char} (h : IsWord word) : IsTight word where
  head c hc := h.solid c (List.mem_of_mem_head? hc)
  last c hc := h.solid c (List.mem_of_mem_getLast? hc)

/-- A text with blanks around it. -/
def Padded (core cs : List Char) : Prop :=
  ∃ before after, IsGap before ∧ IsGap after ∧ cs = before ++ (core ++ after)

theorem Padded.refl (cs : List Char) : Padded cs cs := ⟨[], [], by decide, by decide, by simp⟩

theorem dropWhile_gap {gap cs : List Char} (hgap : IsGap gap)
    (hcs : ∀ c ∈ cs.head?, isBlank c = false) : (gap ++ cs).dropWhile isBlank = cs := by
  rw [List.dropWhile_append_of_pos hgap]
  cases cs with
  | nil => rfl
  | cons c cs => rw [List.dropWhile_cons_of_neg (by simp [hcs c rfl])]

/-- **The blanks around a text are taken away, and nothing else.** -/
theorem Padded.trim_eq {core cs : List Char} (h : Padded core cs) (hcore : IsTight core) :
    trim cs = core := by
  obtain ⟨before, after, hbefore, hafter, rfl⟩ := h
  have hgap : IsGap after.reverse := fun c hc => hafter c (List.mem_reverse.mp hc)
  cases core with
  | nil =>
    have hall : IsGap (before ++ after) := fun c hc =>
      (List.mem_append.mp hc).elim (hbefore c) (hafter c)
    have hdrop : (before ++ after ++ []).dropWhile isBlank = [] := dropWhile_gap hall (by simp)
    rw [List.append_nil] at hdrop
    rw [trim, List.nil_append, hdrop]
    rfl
  | cons c core =>
    have hlast : ∀ d ∈ (c :: core).reverse.head?, isBlank d = false := by
      rw [List.head?_reverse]
      exact hcore.last
    rw [trim, dropWhile_gap hbefore (by simpa using hcore.head), List.reverse_append,
      dropWhile_gap hgap hlast, List.reverse_reverse]

/-- Every text ends in some blanks, before which there is none. -/
theorem exists_gap (cs : List Char) :
    ∃ core gap, cs = core ++ gap ∧ IsGap gap ∧ ∀ c ∈ core.getLast?, isBlank c = false := by
  refine ⟨cs.rdropWhile isBlank, cs.rtakeWhile isBlank, List.rdropWhile_append_rtakeWhile.symm,
    fun c hc => List.mem_rtakeWhile_imp hc, fun c hc => ?_⟩
  obtain ⟨hne, rfl⟩ := List.mem_getLast?_eq_getLast hc
  simpa using List.rdropWhile_last_not isBlank cs hne

/-- Every text is a tight one with blanks around it. -/
theorem exists_tight (cs : List Char) : ∃ core, IsTight core ∧ Padded core cs := by
  obtain ⟨core, gap, hcs, hgap, hlast⟩ := exists_gap (cs.dropWhile isBlank)
  refine ⟨core, ⟨fun c hc => ?_, hlast⟩, cs.takeWhile isBlank, gap,
    fun c hc => List.mem_takeWhile_imp hc, hgap, ?_⟩
  · have hhead := List.head?_dropWhile_not isBlank cs
    have hne := List.ne_nil_of_mem (List.mem_of_mem_head? hc)
    rw [hcs, List.head?_append_of_ne_nil _ hne, hc] at hhead
    exact hhead
  · rw [← hcs, List.takeWhile_append_dropWhile]

/-- **What is left of a text is tight, and around it there were only blanks.** This is all that is
used of `trim`. -/
theorem trim_spec (cs : List Char) : IsTight (trim cs) ∧ Padded (trim cs) cs := by
  obtain ⟨core, hcore, hpadded⟩ := exists_tight cs
  rw [hpadded.trim_eq hcore]
  exact ⟨hcore, hpadded⟩

/-- More blanks at the end make no difference. -/
theorem trim_append_gap {gap : List Char} (hgap : IsGap gap) (cs : List Char) :
    trim (cs ++ gap) = trim cs := by
  obtain ⟨core, hcore, before, after, hbefore, hafter, rfl⟩ := exists_tight cs
  have hafter' : IsGap (after ++ gap) := fun c hc =>
    (List.mem_append.mp hc).elim (hafter c) (hgap c)
  have hpadded : Padded core (before ++ (core ++ after) ++ gap) :=
    ⟨before, after ++ gap, hbefore, hafter', by simp only [List.append_assoc]⟩
  rw [hpadded.trim_eq hcore, Padded.trim_eq ⟨before, after, hbefore, hafter, rfl⟩ hcore]

theorem trim_of_isGap {gap : List Char} (hgap : IsGap gap) : trim gap = [] :=
  trim_append_gap hgap []

/-- If nothing is left, there were only blanks. -/
theorem isGap_of_trim_eq_nil {cs : List Char} (h : trim cs = []) : IsGap cs := by
  obtain ⟨-, gap, gap', hgap, hgap', hcs⟩ := trim_spec cs
  rw [h, List.nil_append] at hcs
  rw [hcs]
  exact fun c hc => (List.mem_append.mp hc).elim (hgap c) (hgap' c)

/-- Where the first character that is no blank is known, only blanks before it and at the end are
taken away. -/
theorem trim_gap_cons {gap : List Char} {c : Char} (hgap : IsGap gap) (hc : isBlank c = false)
    (rest : List Char) :
    ∃ core after, rest = core ++ after ∧ IsGap after ∧ trim (gap ++ c :: rest) = c :: core := by
  obtain ⟨core, after, rfl, hafter, hlast⟩ := exists_gap rest
  refine ⟨core, after, rfl, hafter, Padded.trim_eq ⟨gap, after, hgap, hafter, rfl⟩ ⟨?_, ?_⟩⟩
  · simpa using hc
  · cases core with
    | nil => simpa using hc
    | cons d core => simpa using hlast

theorem exists_intercalate_cons (word : List Char) (ws : List (List Char)) :
    ∃ rest, [' '].intercalate (word :: ws) = word ++ rest := by
  cases ws with
  | nil => exact ⟨[], by simp⟩
  | cons word' ws =>
    exact ⟨[' '] ++ [' '].intercalate (word' :: ws), by
      rw [List.intercalate_cons_cons, List.append_assoc]⟩

theorem isTight_intercalate {ws : List (List Char)} (h : ∀ word ∈ ws, IsWord word) :
    IsTight ([' '].intercalate ws) := by
  induction ws with
  | nil => exact ⟨by simp, by simp⟩
  | cons word ws ih =>
    obtain ⟨hword, hws⟩ := List.forall_mem_cons.mp h
    constructor
    · obtain ⟨rest, hrest⟩ := exists_intercalate_cons word ws
      rw [hrest, List.head?_append_of_ne_nil _ hword.ne_nil]
      exact hword.isTight.head
    · cases ws with
      | nil => simpa using hword.isTight.last
      | cons word' ws =>
        have hne : [' '].intercalate (word' :: ws) ≠ [] := by
          obtain ⟨rest, hrest⟩ := exists_intercalate_cons word' ws
          simp [hrest, (hws word' List.mem_cons_self).ne_nil]
        rw [List.intercalate_cons_cons, List.getLast?_append_of_ne_nil _ hne]
        exact (ih hws).last

theorem notMem_intercalate {c : Char} (hc : c ≠ ' ') {ws : List (List Char)}
    (h : ∀ word ∈ ws, c ∉ word) : c ∉ [' '].intercalate ws := by
  intro hmem
  rcases mem_of_mem_intercalate hmem with hsep | ⟨word, hword, hchar⟩
  · exact hc (List.mem_singleton.mp hsep)
  · exact h word hword hchar

/-! ## Lines -/

/-- Some lines with their ends, a line feed or a carriage return and a line feed. The last line need
not end. -/
inductive HasLines : List (List Char) → List Char → Prop
  | nil : HasLines [] []
  | last {line : List Char} : '\n' ∉ line → HasLines [line] line
  | lineFeed {line rest : List Char} {ls : List (List Char)} : '\n' ∉ line → HasLines ls rest →
      HasLines (line :: ls) (line ++ '\n' :: rest)
  | carriageReturn {line rest : List Char} {ls : List (List Char)} : '\n' ∉ line →
      HasLines ls rest → HasLines (line :: ls) (line ++ '\r' :: '\n' :: rest)

theorem cut_line {line : List Char} (hline : '\n' ∉ line) : cut (· = '\n') line = [line] := by
  refine cut_of_forall fun c hc => decide_eq_false fun heq => hline ?_
  rwa [← heq]

/-- Lines without line feeds, each of which ends with one. -/
theorem hasLines_flatMap {ls : List (List Char)} (h : ∀ line ∈ ls, '\n' ∉ line) :
    HasLines ls (ls.flatMap (· ++ ['\n'])) := by
  induction ls with
  | nil => exact .nil
  | cons line ls ih =>
    obtain ⟨hline, hls⟩ := List.forall_mem_cons.mp h
    have hcons := HasLines.lineFeed hline (ih hls)
    rw [List.flatMap_cons, List.append_assoc]
    exact hcons

/-- A line ends at the first line feed, and a carriage return before it goes with it. -/
theorem lines_append {line : List Char} (hline : '\n' ∉ line) (rest : List Char) :
    lines (line ++ '\n' :: rest) = dropReturn line :: lines rest := by
  have hne := cut_ne_nil (· = '\n') rest
  simp only [lines, cut_append (p := (· = '\n')) (decide_eq_true rfl), cut_line hline,
    List.singleton_append]
  rw [List.dropLast_cons_of_ne_nil hne, List.getLast?_cons_of_ne_nil hne]
  rfl

/-- Lines without line feeds and without carriage returns are read as they stand in a text in which
each of them ends with a line feed. -/
theorem lines_flatMap {ls : List (List Char)} (h : ∀ line ∈ ls, '\n' ∉ line ∧ '\r' ∉ line) :
    lines (ls.flatMap (· ++ ['\n'])) = ls := by
  induction ls with
  | nil => rfl
  | cons line ls ih =>
    obtain ⟨⟨hfeed, hreturn⟩, hls⟩ := List.forall_mem_cons.mp h
    have hkept : dropReturn line = line :=
      if_neg fun hlast => hreturn (List.mem_of_getLast? hlast)
    rw [List.flatMap_cons, List.append_assoc, List.singleton_append, lines_append hfeed, hkept,
      ih hls]

theorem lines_of_notMem {line : List Char} (hline : '\n' ∉ line) :
    lines line = [line].filter (· ≠ []) := by
  simp [lines, cut_line hline]

/-- The lines that are kept, without the blanks around them, with their numbers. -/
def keptLines (keep : List Char → Bool) : Nat → List (List Char) → List (Nat × List Char)
  | _, [] => []
  | number, line :: ls =>
    if keep (trim line) then (number, trim line) :: keptLines keep (number + 1) ls
    else keptLines keep (number + 1) ls

/-- A filter on all lines with their numbers is the same as going through them one by one. -/
theorem keptLines_eq (keep : List Char → Bool) (number : Nat) (ls : List (List Char)) :
    keptLines keep number ls = ((ls.zipIdx number).map fun (line, n) => (n, trim line)).filter
      fun (_, line) => keep line := by
  induction ls generalizing number with
  | nil => rfl
  | cons line ls ih => simp [keptLines, List.filter_cons, ih]

/-- A line that is blank, or a comment, which starts with one of some marks. -/
def IsIdle (marks : List Char) (line : List Char) : Prop :=
  IsGap line ∨ ∃ gap, IsGap gap ∧ ∃ mark ∈ marks, ∃ rest, line = gap ++ mark :: rest

section Idle

variable {marks line : List Char} {c : Char}

/-- A line is idle if one of the marks starts it, or if a blank does and the rest is idle. -/
theorem isIdle_cons :
    IsIdle marks (c :: line) ↔ c ∈ marks ∨ isBlank c = true ∧ IsIdle marks line := by
  constructor
  · rintro (hgap | ⟨gap, hgap, mark, hmark, rest, hline⟩)
    · obtain ⟨hc, hgap⟩ := List.forall_mem_cons.mp hgap
      exact .inr ⟨hc, .inl hgap⟩
    · cases gap with
      | nil =>
        cases hline
        exact .inl hmark
      | cons b gap =>
        cases hline
        obtain ⟨hc, hgap⟩ := List.forall_mem_cons.mp hgap
        exact .inr ⟨hc, .inr ⟨gap, hgap, mark, hmark, rest, rfl⟩⟩
  · rintro (hmark | ⟨hc, hgap | ⟨gap, hgap, mark, hmark, rest, rfl⟩⟩)
    · exact .inr ⟨[], by simp [IsGap], c, hmark, line, rfl⟩
    · exact .inl (List.forall_mem_cons.mpr ⟨hc, hgap⟩)
    · exact .inr ⟨c :: gap, List.forall_mem_cons.mpr ⟨hc, hgap⟩, mark, hmark, rest, rfl⟩

instance decidableIsIdle (marks : List Char) : (line : List Char) → Decidable (IsIdle marks line)
  | [] => .isTrue (.inl (by simp [IsGap]))
  | _ :: line =>
    have := decidableIsIdle marks line
    decidable_of_iff _ isIdle_cons.symm

/-- Whether a line is idle shows without the blanks around it: nothing is left, or what is left
starts with a mark. -/
theorem isIdle_iff_trim (hmarks : ∀ mark ∈ marks, isBlank mark = false) :
    IsIdle marks line ↔ trim line = [] ∨ ∃ mark ∈ marks, (trim line).head? = some mark := by
  constructor
  · rintro (hgap | ⟨gap, hgap, mark, hmark, rest, rfl⟩)
    · exact .inl (trim_of_isGap hgap)
    · obtain ⟨core, after, -, -, htrim⟩ := trim_gap_cons hgap (hmarks mark hmark) rest
      exact .inr ⟨mark, hmark, by rw [htrim, List.head?_cons]⟩
  · rintro (hnil | ⟨mark, hmark, hhead⟩)
    · exact .inl (isGap_of_trim_eq_nil hnil)
    · obtain ⟨-, gap, gap', hgap, -, hpadded⟩ := trim_spec line
      obtain ⟨rest, htrim⟩ := List.head?_eq_some_iff.mp hhead
      rw [htrim] at hpadded
      exact .inr ⟨gap, hgap, mark, hmark, rest ++ gap', hpadded⟩

end Idle

/-- Since a carriage return is a blank, it does not matter whether it was taken away with the line
end. -/
theorem trim_dropReturn (line : List Char) : trim (dropReturn line) = trim line := by
  unfold dropReturn
  split_ifs with hlast
  · -- a carriage return at the end is a blank there
    have hgap : IsGap ['\r'] := by simp [IsGap, isBlank, blankRanges]
    rw [← trim_append_gap hgap line.dropLast, List.dropLast_append_getLast? _ hlast]
  · rfl

/-- **The lines of a text are read as they were put together,** up to the blanks around them and as
long as blank lines are not kept. -/
theorem HasLines.keptLines_lines {keep : List Char → Bool} (hkeep : keep [] = false)
    {ls : List (List Char)} {cs : List Char} (h : HasLines ls cs) (number : Nat) :
    keptLines keep number (lines cs) = keptLines keep number ls := by
  induction h generalizing number with
  | nil => rfl
  | @last line hline =>
    rw [lines_of_notMem hline]
    by_cases hnil : line = []
    · subst hnil
      simp [keptLines, trim, hkeep]
    · simp [hnil]
  | lineFeed hline _ ih =>
    rw [lines_append hline, keptLines, keptLines, trim_dropReturn, ih]
  | @carriageReturn line rest _ hline _ ih =>
    have hline' : '\n' ∉ line ++ ['\r'] := by simp [hline]
    have hreturn : dropReturn (line ++ ['\r']) = line := by simp [dropReturn]
    have hlines := lines_append hline' rest
    rw [List.append_assoc, hreturn] at hlines
    have happend : '\r' :: '\n' :: rest = ['\r'] ++ '\n' :: rest := rfl
    rw [happend, hlines, keptLines, keptLines, ih]

/-- The same for the lines as a reader numbers them, from one on. -/
theorem HasLines.keptLines_numberedLines {keep : List Char → Bool} (hkeep : keep [] = false)
    {ls : List (List Char)} {cs : List Char} (h : HasLines ls cs) :
    ((numberedLines cs).map fun (number, line) => (number, trim line)).filter
      (fun (_, line) => keep line) = keptLines keep 1 ls := by
  rw [← h.keptLines_lines hkeep, keptLines_eq, numberedLines, List.map_map]
  rfl

end ExactCover.Text
