import ExactCover.Puzzle

/-!
# Families of subsets

Given are items, and named subsets of them. Wanted are some of the subsets that hold every item
exactly once between them; some may be fixed beforehand. As a puzzle, the items are the
constraints, each subset is a row, and to play is to choose a subset none of whose items is covered
yet.

* **`Declaration`**: items, subsets and fixed names as they are written down.
* **`Family.ofDeclaration`**: checks a declaration, or says what is wrong with it.
* **`Family.Choice`**: the choice of a subset, by its items.
* **`Family.play?`**: what the rules accept.
-/

namespace ExactCover

/-! ### Subsets and choices -/

/-- The choice of the subset that consists of the items with these keys. -/
structure Family.Choice where
  keys : List String
  deriving DecidableEq, Repr

instance : Move Family.Choice where
  keys := Family.Choice.keys
  isValid c := !c.keys.isEmpty
  text c := "\x7b" ++ " ".intercalate c.keys ++ "\x7d"

/-- A subset with its name. Its items are in the order of the whole, and none is repeated. -/
structure Family.Subset where
  name : String
  items : List String
  deriving DecidableEq, Repr

/-- A family of subsets, and what is covered so far. Each item carries a mark that says whether it is
covered, so that a family does not remember in which order its items were covered. -/
structure Family where
  marks : List (String × Bool)
  subsets : List Family.Subset
  fixed : List Family.Subset
  deriving DecidableEq, Repr

namespace Family

/-! ### Items and marks -/

def items (f : Family) : List String := f.marks.map (·.1)

/-- For each item whether it is covered. -/
def flags (f : Family) : List Bool := f.marks.map (·.2)

def isCovered (f : Family) (item : String) : Bool :=
  f.marks.any fun (other, covered) => covered && other == item

def isSolved (f : Family) : Bool := f.marks.all (·.2)

def mark (f : Family) (chosen : List String) : Family :=
  { f with marks := f.marks.map fun (item, covered) => (item, covered || chosen.contains item) }

@[simp] theorem items_mark (f : Family) (chosen : List String) :
    (f.mark chosen).items = f.items := by
  simp [mark, items]

/-- What is covered after some items were marked: what was covered before, and these. -/
theorem isCovered_mark (f : Family) (chosen : List String) (item : String) :
    (f.mark chosen).isCovered item
      = (f.isCovered item || (f.items.contains item && chosen.contains item)) := by
  rcases f with ⟨marks, subsets, fixed⟩
  simp only [mark, isCovered, items, List.any_map, List.contains_eq_any_beq]
  induction marks with
  | nil => rfl
  | cons m rest ih =>
    simp only [List.any_cons, Function.comp_apply, ih]
    by_cases h : m.1 = item
    · subst h
      cases m.2 <;> cases chosen.any (m.1 == ·) <;> simp
    · have hne : (m.1 == item) = false := by simpa using h
      have hne' : (item == m.1) = false := by simpa using Ne.symm h
      simp [hne, hne']

/-! ### Playing -/

/-- The items with these keys, in order and without repeats, if every key is an item. -/
def select? (f : Family) (keys : List String) : Option (List String) :=
  let found := (f.marks.filter fun (item, _) => keys.contains item).map (·.1)
  if keys.all found.contains then some found else none

/-- The same in terms of the items alone: what is covered does not matter. -/
theorem select?_eq (f : Family) (keys : List String) :
    f.select? keys
      = if ∀ key ∈ keys, key ∈ f.items then some (f.items.filter (· ∈ keys)) else none := by
  have hfound : (f.marks.filter fun (item, _) => keys.contains item).map (·.1)
      = f.items.filter (· ∈ keys) := by
    simp [items, List.filter_map, Function.comp_def]
  simp only [select?, hfound]
  congr 1
  simp only [List.all_eq_true, List.contains_iff_mem, List.mem_filter, decide_eq_true_eq,
    eq_iff_iff]
  exact ⟨fun h key hk => (h key hk).1, fun h key hk => ⟨h key hk, hk⟩⟩

/-- The declared subset that consists of exactly these items; of several, the first. -/
def subsetOf? (f : Family) (items : List String) : Option Subset :=
  f.subsets.find? (·.items = items)

/-- The name of the declared subset that a choice means. -/
def nameOf? (f : Family) (c : Choice) : Option String := do
  let items ← f.select? c.keys
  return (← f.subsetOf? items).name

/-- The family after a choice. Refused are choices that mean no declared subset, and subsets with
an item that is covered already. -/
def play? (f : Family) (c : Choice) : Option Family := do
  let items ← f.select? c.keys
  -- any declared subset will do; its name does not matter
  let _ ← f.subsetOf? items
  if items.any f.isCovered then none else some (f.mark items)

def Subset.choice (s : Subset) : Choice := ⟨s.items⟩

def initial (f : Family) : List Choice := f.fixed.map Subset.choice

/-- The choice of the items with these keys, whether or not they are a declared subset. -/
def ofKeys? (f : Family) (keys : List String) : Option Choice :=
  (f.select? keys).map Choice.mk

end Family

instance : Puzzle Family Family.Choice where
  constraints := Family.items
  rows f := f.subsets.map (·.items)
  initial := Family.initial
  play? := Family.play?
  isSolved := Family.isSolved
  ofKeys? := Family.ofKeys?

/-! ### Declarations -/

/-- A family as it is written down: all items, each subset by its name and the keys of its items,
and the names of the subsets that are fixed. -/
structure Declaration where
  items : List String
  subsets : List (String × List String)
  fixed : List String
  deriving DecidableEq, Repr

namespace Family

inductive Flaw
  | duplicateItem (item : String)
  | duplicateSubset (name : String)
  | emptySubset (name : String)
  | unknownItem (subset item : String)
  | unknownSubset (name : String)
  deriving DecidableEq, Repr

def Flaw.message : Flaw → String
  | .duplicateItem item => "item " ++ item ++ " is declared twice"
  | .duplicateSubset name => "subset " ++ name ++ " is declared twice"
  | .emptySubset name => "subset " ++ name ++ " is empty"
  | .unknownItem subset item => "subset " ++ subset ++ " names unknown item " ++ item
  | .unknownSubset name => "no subset is named " ++ name

/-- The first element that equals one before it, or one of those seen already. -/
def firstRepeat? (seen : List String) : List String → Option String
  | [] => none
  | x :: xs => if seen.contains x then some x else firstRepeat? (x :: seen) xs

def declare (items : List String) (declared : List Subset) :
    String × List String → Except Flaw (List Subset)
  | (name, keys) =>
    if declared.any (·.name = name) then .error (.duplicateSubset name)
    else if keys = [] then .error (.emptySubset name)
    else
      match keys.find? (!items.contains ·) with
      | some item => .error (.unknownItem name item)
      | none => .ok (declared ++ [{ name, items := items.filter keys.contains }])

def named (declared : List Subset) (name : String) : Except Flaw Subset :=
  match declared.find? (·.name = name) with
  | some s => .ok s
  | none => .error (.unknownSubset name)

/-- The family that a declaration describes, with its fixed subsets chosen in order. Fixed subsets
that overlap are no flaw: the rules refuse the later one, which leaves it unchosen. -/
def ofDeclaration (d : Declaration) : Except Flaw Family := do
  match firstRepeat? [] d.items with
  | some item => throw (.duplicateItem item)
  | none =>
    let subsets ← d.subsets.foldlM (declare d.items) []
    let fixed ← d.fixed.mapM (named subsets)
    -- nothing is covered before the fixed subsets are chosen
    let fresh : Family := { marks := d.items.map (·, false), subsets, fixed }
    return fresh.initial.foldl Puzzle.playOrSkip fresh

end Family

end ExactCover
