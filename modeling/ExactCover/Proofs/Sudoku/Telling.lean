import ExactCover.Proofs.Sudoku.Keys

/-!
# Keys that tell a placement

Some keys tell a placement, or they tell none. Whoever goes through them one by one needs no more
than four slots: one for the row, the column, the digit and the box that were mentioned so far. A
slot that is filled stays as it is, and a key that is no key or disagrees with a slot is the end of
it. What the slots hold does not depend on the order of the keys, and so neither does the result.

* **`Slots.fill?`**, **`Placement.ofKeysInTurn?`**: keys that are gone through one by one.
* **`Holds`**: what a slot holds, and **`Slots.holds_iff`**: what all four hold, by induction.
* **`Placement.ofKeys?_eq_inTurn`**: the placement comes to the same.
* **`Placement.Mentioned`**: the rows, columns, digits and boxes that keys mention.
* **`Placement.Refused`**, **`Placement.ofKeys?_eq_none_iff`**: why keys tell no placement.
* **`Placement.ofKeys?_exact`**: which placement some keys tell, and when they tell none.
-/

namespace ExactCover.Sudoku

/-! ## Slots -/

/-- The row, the column, the digit and the box that were mentioned, if they were. -/
structure Slots where
  row : Option Nat
  column : Option Nat
  digit : Option Nat
  box : Option Nat
  deriving DecidableEq, Repr

/-- A slot after a number was mentioned, or none was. A slot that is filled must agree. -/
def agree? : Option Nat → Option Nat → Option (Option Nat)
  | slot, none => some slot
  | none, some n => some (some n)
  | some m, some n => if m = n then some (some n) else none

namespace Slots

def empty : Slots := ⟨none, none, none, none⟩

/-- The slots after one more constraint, unless it disagrees with one of them. -/
def fill? (s : Slots) (k : Constraint) : Option Slots := do
  return {
    row := ← agree? s.row k.row?
    column := ← agree? s.column k.column?
    digit := ← agree? s.digit k.digit?
    box := ← agree? s.box k.box? }

/-- The slots after one more key. -/
def read? (s : Slots) (key : String) : Option Slots := do s.fill? (← Constraint.ofKey? key)

/-- The placement in the slots, if its row, its column and its digit are there, its cell is on the
board, and a box that is there is the one of the cell. -/
def placement? (size : Size) (s : Slots) : Option Placement := do
  let row ← s.row
  let column ← s.column
  let value ← s.digit
  if 1 ≤ row ∧ row ≤ size.side ∧ 1 ≤ column ∧ column ≤ size.side
      ∧ ∀ box ∈ s.box, box = size.boxOf (row - 1) (column - 1) + 1
  then some (.ofCell size (row - 1) (column - 1) value)
  else none

end Slots

/-- The placement that is found by going through the keys one by one. -/
def Placement.ofKeysInTurn? (size : Size) (keys : List String) : Option Placement := do
  let slots ← keys.foldlM Slots.read? Slots.empty
  slots.placement? size

/-! ## What slots hold -/

/-- A slot holds the number that was mentioned each time, or nothing if none was mentioned. -/
def Holds (slot : Option Nat) (mentioned : List Nat) : Prop :=
  slot = mentioned.head? ∧ ∀ n ∈ mentioned, slot = some n

theorem holds_some_iff {l : List Nat} {n : Nat} :
    Holds (some n) l ↔ Placement.unanimous? l = some n := by
  rw [Placement.unanimous?_eq_some_iff, Holds]
  constructor
  · rintro ⟨hhead, hall⟩
    exact ⟨List.mem_of_head? hhead.symm, fun m hm => (Option.some.inj (hall m hm)).symm⟩
  · rintro ⟨hmem, hall⟩
    refine ⟨?_, fun m hm => congrArg some (hall m hm).symm⟩
    cases l with
    | nil => cases hmem
    | cons m l => rw [List.head?_cons, hall m List.mem_cons_self]

/-- One more number that is mentioned, or none. -/
theorem holds_append {slot seen : Option Nat} {l : List Nat} :
    Holds slot (l ++ seen.toList) ↔ ∃ before, Holds before l ∧ agree? before seen = some slot := by
  cases seen with
  | none =>
    rw [Option.toList_none, List.append_nil]
    constructor
    · exact fun h => ⟨slot, h, by cases slot <;> rfl⟩
    · rintro ⟨before, h, hagree⟩
      have heq : before = slot := by cases before <;> exact Option.some.inj hagree
      exact heq ▸ h
  | some n =>
    rw [Option.toList_some]
    constructor
    · rintro ⟨hhead, hall⟩
      have hn : slot = some n := hall n (by simp)
      cases l with
      | nil => exact ⟨none, ⟨rfl, by simp⟩, by rw [hn]; rfl⟩
      | cons m l =>
        -- the slot was filled before, with the same number
        have hm : slot = some m := hhead
        have heq : m = n := Option.some.inj (hm.symm.trans hn)
        refine ⟨some m, ⟨rfl, fun x hx => ?_⟩, ?_⟩
        · rw [← hm]
          exact hall x (List.mem_append_left [n] hx)
        · rw [agree?, if_pos heq, hn]
    · rintro ⟨before, ⟨hhead, hall⟩, hagree⟩
      cases before with
      | none =>
        have hl : l = [] := List.head?_eq_none_iff.mp hhead.symm
        cases hagree
        subst hl
        exact ⟨rfl, by simp⟩
      | some m =>
        rw [agree?, Option.ite_none_right_eq_some] at hagree
        obtain ⟨rfl, hslot⟩ := hagree
        cases hslot
        refine ⟨by rw [List.head?_append, ← hhead]; rfl, List.forall_mem_append.mpr ⟨hall, ?_⟩⟩
        simp

theorem Slots.fill?_eq_some_iff {s s' : Slots} {k : Constraint} : s.fill? k = some s' ↔
    agree? s.row k.row? = some s'.row ∧ agree? s.column k.column? = some s'.column ∧
      agree? s.digit k.digit? = some s'.digit ∧ agree? s.box k.box? = some s'.box := by
  simp only [Slots.fill?, Option.bind_eq_bind, Option.bind_eq_some_iff]
  constructor
  · rintro ⟨row, hrow, column, hcolumn, digit, hdigit, box, hbox, heq⟩
    cases heq
    exact ⟨hrow, hcolumn, hdigit, hbox⟩
  · rintro ⟨hrow, hcolumn, hdigit, hbox⟩
    exact ⟨_, hrow, _, hcolumn, _, hdigit, _, hbox, rfl⟩

theorem filterMap_concat (mention : Constraint → Option Nat) (cs : List Constraint)
    (k : Constraint) :
    (cs ++ [k]).filterMap mention = cs.filterMap mention ++ (mention k).toList := by
  rw [List.filterMap_append]
  cases hk : mention k <;> simp [hk]

/-- **What the slots hold after some constraints.** Induction on the constraints, from the last
one. -/
theorem Slots.holds_iff {cs : List Constraint} {s : Slots} :
    cs.foldlM Slots.fill? Slots.empty = some s ↔
      Holds s.row (cs.filterMap Constraint.row?) ∧
      Holds s.column (cs.filterMap Constraint.column?) ∧
      Holds s.digit (cs.filterMap Constraint.digit?) ∧
      Holds s.box (cs.filterMap Constraint.box?) := by
  induction cs using List.reverseRecOn generalizing s with
  | nil =>
    obtain ⟨row, column, digit, box⟩ := s
    simp [Holds, Slots.empty, eq_comm]
  | append_singleton cs k ih =>
    have hlast : ∀ t : Slots, [k].foldlM Slots.fill? t = t.fill? k := fun t => by simp
    simp only [List.foldlM_append, Option.bind_eq_bind, Option.bind_eq_some_iff, hlast,
      filterMap_concat, holds_append]
    constructor
    · rintro ⟨t, ht, hfill⟩
      obtain ⟨hrow, hcolumn, hdigit, hbox⟩ := ih.mp ht
      obtain ⟨hrow', hcolumn', hdigit', hbox'⟩ := Slots.fill?_eq_some_iff.mp hfill
      exact ⟨⟨_, hrow, hrow'⟩, ⟨_, hcolumn, hcolumn'⟩, ⟨_, hdigit, hdigit'⟩, _, hbox, hbox'⟩
    · rintro ⟨⟨row, hrow, hrow'⟩, ⟨column, hcolumn, hcolumn'⟩, ⟨digit, hdigit, hdigit'⟩,
        box, hbox, hbox'⟩
      exact ⟨⟨row, column, digit, box⟩, ih.mpr ⟨hrow, hcolumn, hdigit, hbox⟩,
        Slots.fill?_eq_some_iff.mpr ⟨hrow', hcolumn', hdigit', hbox'⟩⟩

/-! ## Going through the keys -/

/-- To read all keys first comes to the same as to read each one when it is its turn. -/
theorem Slots.foldlM_read?_eq_some_iff {keys : List String} {s s' : Slots} :
    keys.foldlM Slots.read? s = some s' ↔
      ∃ cs, keys.mapM Constraint.ofKey? = some cs ∧ cs.foldlM Slots.fill? s = some s' := by
  induction keys generalizing s with
  | nil => simp
  | cons key keys ih =>
    simp only [List.foldlM_cons, List.mapM_cons, Option.bind_eq_bind, Option.bind_eq_some_iff, ih,
      Slots.read?]
    constructor
    · rintro ⟨t, ⟨k, hk, hfill⟩, cs, hcs, hfold⟩
      exact ⟨k :: cs, ⟨k, hk, cs, hcs, rfl⟩, Option.bind_eq_some_iff.mpr ⟨t, hfill, hfold⟩⟩
    · rintro ⟨_, ⟨k, hk, cs, hcs, heq⟩, hfold⟩
      cases heq
      obtain ⟨t, hfill, hfold⟩ := Option.bind_eq_some_iff.mp hfold
      exact ⟨t, ⟨k, hk, hfill⟩, cs, hcs, hfold⟩

/-- What the slots hold is what the constraints mention, so the placement is the same. -/
theorem placement?_of_constraints {size : Size} {cs : List Constraint} {p : Placement} :
    (∃ s, cs.foldlM Slots.fill? Slots.empty = some s ∧ s.placement? size = some p) ↔
      Placement.ofConstraints? size cs = some p := by
  simp only [Slots.holds_iff, Slots.placement?, Placement.ofConstraints?, Option.bind_eq_bind,
    Option.bind_eq_some_iff, Option.ite_none_right_eq_some]
  constructor
  · rintro ⟨s, ⟨hrow, hcolumn, hdigit, hbox⟩, row, hrow', column, hcolumn', value, hvalue,
      ⟨h₁, h₂, h₃, h₄, hboxes⟩, hp⟩
    rw [hrow', holds_some_iff] at hrow
    rw [hcolumn', holds_some_iff] at hcolumn
    rw [hvalue, holds_some_iff] at hdigit
    exact ⟨row, hrow, column, hcolumn, value, hdigit,
      ⟨h₁, h₂, h₃, h₄, fun box hmem => hboxes box (hbox.2 box hmem)⟩, hp⟩
  · rintro ⟨row, hrow, column, hcolumn, value, hdigit, ⟨h₁, h₂, h₃, h₄, hboxes⟩, hp⟩
    let boxes := cs.filterMap Constraint.box?
    -- all boxes that are mentioned are the one of the cell, so they agree
    have hholds : Holds boxes.head? boxes := by
      refine ⟨rfl, fun box hmem => ?_⟩
      obtain ⟨first, rest, hcons⟩ := List.exists_cons_of_ne_nil (List.ne_nil_of_mem hmem)
      have hfirst := hboxes first (show first ∈ boxes by simp [hcons])
      rw [hcons, List.head?_cons, hboxes box hmem, hfirst]
    exact ⟨⟨some row, some column, some value, boxes.head?⟩,
      ⟨holds_some_iff.mpr hrow, holds_some_iff.mpr hcolumn, holds_some_iff.mpr hdigit, hholds⟩,
      row, rfl, column, rfl, value, rfl,
      ⟨h₁, h₂, h₃, h₄, fun box hbox => hboxes box (List.mem_of_head? hbox)⟩, hp⟩

namespace Placement

/-- **Going through the keys one by one comes to the same.** -/
theorem ofKeys?_eq_inTurn (size : Size) (keys : List String) :
    ofKeys? size keys = ofKeysInTurn? size keys := by
  refine Option.ext fun p => ?_
  simp only [ofKeys?, ofKeysInTurn?, Option.bind_eq_bind, Option.bind_eq_some_iff,
    Slots.foldlM_read?_eq_some_iff, ← placement?_of_constraints]
  constructor
  · rintro ⟨cs, hcs, s, hs, hp⟩
    exact ⟨s, ⟨cs, hcs, hs⟩, hp⟩
  · rintro ⟨s, ⟨cs, hcs, hs⟩, hp⟩
    exact ⟨cs, hcs, s, hs, hp⟩

/-! ## Which placement is told -/

/-- A number that some key mentions, as a row, a column, a digit or a box. -/
def Mentioned (keys : List String) (mention : Constraint → Option Nat) (n : Nat) : Prop :=
  ∃ key ∈ keys, ∃ k : Constraint, k.SpeltBy key ∧ mention k = some n

variable {size : Size} {keys keys' : List String} {p : Placement}
  {mention : Constraint → Option Nat} {n : Nat}

/-- What a key spells is one constraint. -/
theorem speltBy_unique {key : String} {k k' : Constraint} (h : k.SpeltBy key)
    (h' : k'.SpeltBy key) : k = k' :=
  Option.some.inj ((Constraint.ofKey?_eq_some_iff.mpr h).symm.trans
    (Constraint.ofKey?_eq_some_iff.mpr h'))

/-- **Keys tell a placement if each one spells one of its constraints,** and its row, its column and
its digit are mentioned. -/
theorem toldBy_iff : p.ToldBy keys ↔ p.position < p.size.cells ∧
    (∀ key ∈ keys, ∃ k ∈ p.constraints, k.SpeltBy key) ∧
    Mentioned keys Constraint.row? (p.row + 1) ∧ Mentioned keys Constraint.column? (p.column + 1) ∧
    Mentioned keys Constraint.digit? p.value := by
  unfold ToldBy
  simp only [Constraint.ofKey?_eq_some_iff]
  constructor
  · rintro ⟨cs, hread, hposition, hmem, hrow, hcolumn, hdigit⟩
    have hmentioned : ∀ {mention : Constraint → Option Nat} {n}, (∃ k ∈ cs, mention k = some n) →
        Mentioned keys mention n := fun ⟨k, hk, hmention⟩ => by
      obtain ⟨key, hkey, hspelt⟩ := exists_of_forall₂ hread hk
      exact ⟨key, hkey, k, hspelt, hmention⟩
    refine ⟨hposition, fun key hkey => ?_, hmentioned hrow, hmentioned hcolumn, hmentioned hdigit⟩
    obtain ⟨k, hk, hspelt⟩ := exists_of_forall₂ hread.flip hkey
    exact ⟨k, hmem k hk, hspelt⟩
  · rintro ⟨hposition, hkeys, hrow, hcolumn, hdigit⟩
    obtain ⟨cs, hread⟩ := exists_forall₂ hkeys
    have hmentioned : ∀ {mention : Constraint → Option Nat} {n}, Mentioned keys mention n →
        ∃ k ∈ cs, mention k = some n := fun ⟨key, hkey, k, hspelt, hmention⟩ => by
      obtain ⟨k', hk', -, hspelt'⟩ := exists_of_forall₂ hread.flip hkey
      exact ⟨k', hk', speltBy_unique hspelt hspelt' ▸ hmention⟩
    refine ⟨cs, hread.imp fun _ _ h => h.2, hposition, fun k hk => ?_, hmentioned hrow,
      hmentioned hcolumn, hmentioned hdigit⟩
    obtain ⟨key, -, hk, -⟩ := exists_of_forall₂ hread hk
    exact hk

/-- What is told depends on which keys there are, and not on their order or number. -/
theorem toldBy_congr (h : ∀ key, key ∈ keys ↔ key ∈ keys') :
    p.ToldBy keys ↔ p.ToldBy keys' := by
  simp only [toldBy_iff, Mentioned, h]

/-- What keys mention is what the placement that they tell has there. -/
theorem ToldBy.constraint (h : p.ToldBy keys) (hn : Mentioned keys mention n) :
    ∃ k ∈ p.constraints, mention k = some n := by
  obtain ⟨key, hkey, k, hspelt, hmention⟩ := hn
  obtain ⟨k', hk', hspelt'⟩ := (toldBy_iff.mp h).2.1 key hkey
  exact ⟨k', hk', speltBy_unique hspelt hspelt' ▸ hmention⟩

theorem ToldBy.row (h : p.ToldBy keys) (hn : Mentioned keys Constraint.row? n) :
    n = p.row + 1 := by
  obtain ⟨k, hk, hmention⟩ := h.constraint hn
  exact (mem_constraints_iff.mp hk).1 n hmention

theorem ToldBy.column (h : p.ToldBy keys) (hn : Mentioned keys Constraint.column? n) :
    n = p.column + 1 := by
  obtain ⟨k, hk, hmention⟩ := h.constraint hn
  exact (mem_constraints_iff.mp hk).2.1 n hmention

theorem ToldBy.digit (h : p.ToldBy keys) (hn : Mentioned keys Constraint.digit? n) :
    n = p.value := by
  obtain ⟨k, hk, hmention⟩ := h.constraint hn
  exact (mem_constraints_iff.mp hk).2.2.1 n hmention

theorem ToldBy.box (h : p.ToldBy keys) (hn : Mentioned keys Constraint.box? n) :
    n = p.box + 1 := by
  obtain ⟨k, hk, hmention⟩ := h.constraint hn
  exact (mem_constraints_iff.mp hk).2.2.2 n hmention

/-! ## Keys that tell no placement -/

/-- Why keys tell no placement: one of them spells nothing, or two mention different numbers in the
same place, or the row, the column or the digit is not mentioned, or a row or a column is not on
the board, or the box is not the one of the cell. -/
inductive Refused (size : Size) (keys : List String) : Prop
  | malformed {key : String} (hkey : key ∈ keys) (h : ∀ k : Constraint, ¬ k.SpeltBy key)
  | disagree {mention : Constraint → Option Nat} {m n : Nat} (hmention : mention ∈
      [Constraint.row?, Constraint.column?, Constraint.digit?, Constraint.box?])
      (hm : Mentioned keys mention m) (hn : Mentioned keys mention n) (h : m ≠ n)
  | unmentioned {mention : Constraint → Option Nat}
      (hmention : mention ∈ [Constraint.row?, Constraint.column?, Constraint.digit?])
      (h : ∀ n, ¬ Mentioned keys mention n)
  | outside {n : Nat}
      (hn : Mentioned keys Constraint.row? n ∨ Mentioned keys Constraint.column? n)
      (h : n = 0 ∨ size.side < n)
  | wrongBox {row column box : Nat} (hrow : Mentioned keys Constraint.row? row)
      (hcolumn : Mentioned keys Constraint.column? column)
      (hbox : Mentioned keys Constraint.box? box)
      (h : box ≠ size.boxOf (row - 1) (column - 1) + 1)

theorem Refused.not_toldBy (h : Refused p.size keys) : ¬ p.ToldBy keys := by
  intro htold
  obtain ⟨hposition, hkeys, hrow, hcolumn, hdigit⟩ := toldBy_iff.mp htold
  cases h with
  | malformed hkey h =>
    obtain ⟨k, -, hspelt⟩ := hkeys _ hkey
    exact h k hspelt
  | disagree hmention hm hn h =>
    simp only [List.mem_cons, List.not_mem_nil, or_false] at hmention
    rcases hmention with rfl | rfl | rfl | rfl
    · exact h ((htold.row hm).trans (htold.row hn).symm)
    · exact h ((htold.column hm).trans (htold.column hn).symm)
    · exact h ((htold.digit hm).trans (htold.digit hn).symm)
    · exact h ((htold.box hm).trans (htold.box hn).symm)
  | unmentioned hmention h =>
    simp only [List.mem_cons, List.not_mem_nil, or_false] at hmention
    rcases hmention with rfl | rfl | rfl
    · exact h _ hrow
    · exact h _ hcolumn
    · exact h _ hdigit
  | outside hn h =>
    have hrow : p.row < p.size.side := Nat.div_lt_of_lt_mul hposition
    have hcolumn : p.column < p.size.side := column_lt
    rcases hn with hn | hn
    · have := htold.row hn
      omega
    · have := htold.column hn
      omega
  | wrongBox hrow hcolumn hbox h =>
    rw [htold.row hrow, htold.column hcolumn, htold.box hbox] at h
    exact h rfl

/-- Keys that are not refused tell the placement of the digit, the row and the column that they
mention. -/
theorem exists_toldBy (h : ¬ Refused size keys) :
    ∃ p : Placement, p.size = size ∧ p.ToldBy keys := by
  have hmentioned : ∀ mention ∈ [Constraint.row?, Constraint.column?, Constraint.digit?],
      ∃ n, Mentioned keys mention n := fun mention hmention => by
    by_contra hnone
    exact h (.unmentioned hmention (not_exists.mp hnone))
  have hagree : ∀ mention ∈
      [Constraint.row?, Constraint.column?, Constraint.digit?, Constraint.box?],
      ∀ m n, Mentioned keys mention m → Mentioned keys mention n → m = n :=
    fun mention hmention m n hm hn => by_contra fun hne => h (.disagree hmention hm hn hne)
  have hinside : ∀ n, Mentioned keys Constraint.row? n ∨ Mentioned keys Constraint.column? n →
      1 ≤ n ∧ n ≤ size.side := fun n hn => by
    by_contra hout
    exact h (.outside hn (by omega))
  obtain ⟨row, hrow⟩ := hmentioned Constraint.row? (by simp)
  obtain ⟨column, hcolumn⟩ := hmentioned Constraint.column? (by simp)
  obtain ⟨value, hvalue⟩ := hmentioned Constraint.digit? (by simp)
  obtain ⟨p, -, rfl, rfl, hposition, rfl, rfl, hbox⟩ :=
    ofCell_pred (hinside row (.inl hrow)) (hinside column (.inr hcolumn)) value
  refine ⟨p, rfl, toldBy_iff.mpr ⟨hposition, fun key hkey => ?_, hrow, hcolumn, hvalue⟩⟩
  obtain ⟨k, hspelt⟩ : ∃ k : Constraint, k.SpeltBy key := by
    by_contra hnone
    exact h (.malformed hkey (not_exists.mp hnone))
  have hmention : ∀ {mention n}, mention k = some n → Mentioned keys mention n :=
    fun hn => ⟨key, hkey, k, hspelt, hn⟩
  refine ⟨k, mem_constraints_iff.mpr ⟨fun n hn => ?_, fun n hn => ?_, fun n hn => ?_,
    fun n hn => ?_⟩, hspelt⟩
  · exact hagree Constraint.row? (by simp) n _ (hmention hn) hrow
  · exact hagree Constraint.column? (by simp) n _ (hmention hn) hcolumn
  · exact hagree Constraint.digit? (by simp) n _ (hmention hn) hvalue
  · rw [hbox]
    by_contra hne
    exact h (.wrongBox hrow hcolumn (hmention hn) hne)

/-- **Keys that tell no placement are refused,** and only those. -/
theorem ofKeys?_eq_none_iff : ofKeys? size keys = none ↔ Refused size keys := by
  constructor
  · intro hnone
    by_contra h
    obtain ⟨p, hsize, htold⟩ := exists_toldBy h
    cases hnone.symm.trans (ofKeys?_eq_some_iff.mpr ⟨hsize, htold⟩)
  · intro h
    refine Option.eq_none_iff_forall_ne_some.mpr fun p hp => ?_
    obtain ⟨rfl, htold⟩ := ofKeys?_eq_some_iff.mp hp
    exact h.not_toldBy htold

/-! ## The result -/

/-- Some keys of a valid placement tell it if they mention its row, its column and its digit. -/
theorem toldBy_of_subset (hvalid : p.isValid = true) (hkeys : ∀ key ∈ keys, key ∈ p.keys)
    (hmentioned : ∀ mention ∈ [Constraint.row?, Constraint.column?, Constraint.digit?],
      ∃ k ∈ p.constraints, k.key ∈ keys ∧ (mention k).isSome = true) : p.ToldBy keys := by
  have hspelt : ∀ k ∈ p.constraints, k.SpeltBy k.key := fun k hk =>
    Constraint.speltBy_key (fits_of_mem hvalid hk)
  refine toldBy_iff.mpr ⟨(valid_iff.mp hvalid).1, fun key hkey => ?_, ?_, ?_, ?_⟩
  · obtain ⟨k, hk, rfl⟩ := List.mem_map.mp (hkeys key hkey)
    exact ⟨k, hk, hspelt k hk⟩
  · obtain ⟨k, hk, hkey, hrow⟩ := hmentioned Constraint.row? (by simp)
    obtain ⟨n, hn⟩ := Option.isSome_iff_exists.mp hrow
    rw [(mem_constraints_iff.mp hk).1 n hn] at hn
    exact ⟨k.key, hkey, k, hspelt k hk, hn⟩
  · obtain ⟨k, hk, hkey, hcolumn⟩ := hmentioned Constraint.column? (by simp)
    obtain ⟨n, hn⟩ := Option.isSome_iff_exists.mp hcolumn
    rw [(mem_constraints_iff.mp hk).2.1 n hn] at hn
    exact ⟨k.key, hkey, k, hspelt k hk, hn⟩
  · obtain ⟨k, hk, hkey, hdigit⟩ := hmentioned Constraint.digit? (by simp)
    obtain ⟨n, hn⟩ := Option.isSome_iff_exists.mp hdigit
    rw [(mem_constraints_iff.mp hk).2.2.1 n hn] at hn
    exact ⟨k.key, hkey, k, hspelt k hk, hn⟩

/-- **Keys tell a placement exactly if they are keys of it and mention enough.** They may be gone
through one by one. Each key has the tags and the numbers of a constraint of the placement, with any
zeros in front, and the row, the column and the digit are mentioned. So every valid placement is
read back from those of its keys that mention these three, in any order and with any repeats. The
result is none exactly if the keys are refused, and so if one of them is no key, has a number that
is too large, or disagrees with the others. -/
theorem ofKeys?_exact (size : Size) (keys : List String) :
    ofKeys? size keys = ofKeysInTurn? size keys ∧
    (∀ p, ofKeys? size keys = some p ↔ p.size = size ∧ p.position < size.cells ∧
      (∀ key ∈ keys, ∃ k ∈ p.constraints, k.SpeltBy key) ∧
      Mentioned keys Constraint.row? (p.row + 1) ∧
      Mentioned keys Constraint.column? (p.column + 1) ∧
      Mentioned keys Constraint.digit? p.value) ∧
    (∀ p : Placement, p.isValid = true → p.size = size → (∀ key ∈ keys, key ∈ p.keys) →
      (∀ mention ∈ [Constraint.row?, Constraint.column?, Constraint.digit?],
        ∃ k ∈ p.constraints, k.key ∈ keys ∧ (mention k).isSome = true) →
      ofKeys? size keys = some p) ∧
    (∀ keys', (∀ key, key ∈ keys ↔ key ∈ keys') → ofKeys? size keys = ofKeys? size keys') ∧
    (ofKeys? size keys = none ↔ Refused size keys) := by
  refine ⟨ofKeys?_eq_inTurn size keys, fun p => ?_, fun p hvalid hsize hkeys hmentioned => ?_,
    fun keys' h => ?_, ofKeys?_eq_none_iff⟩
  · rw [ofKeys?_eq_some_iff, toldBy_iff]
    exact and_congr_right fun hsize => by rw [hsize]
  · exact ofKeys?_eq_some_iff.mpr ⟨hsize, toldBy_of_subset hvalid hkeys hmentioned⟩
  · refine Option.ext fun p => ?_
    rw [ofKeys?_eq_some_iff, ofKeys?_eq_some_iff, toldBy_congr h]

/-- Three of the keys of a placement tell it, and so do keys with zeros in front. A digit that
disagrees makes the result none. -/
theorem ofKeys?_exact_zeros :
    ofKeys? .nine ["B1#5", "C3#5", "R2#5"] = some ⟨11, 5, .nine⟩ ∧
    ofKeys? .nine ["R02C3", "R2#5", "B001#005"] = some ⟨11, 5, .nine⟩ ∧
    ofKeys? .nine ["R02C3", "C3#6", "R2#5", "B001#005"] = none := by
  refine ⟨?_, ?_, ?_⟩
  · obtain ⟨-, -, hread, -⟩ := ofKeys?_exact .nine ["B1#5", "C3#5", "R2#5"]
    refine hread ⟨11, 5, .nine⟩ rfl rfl (by decide +kernel) fun mention hmention => ?_
    simp only [List.mem_cons, List.not_mem_nil, or_false] at hmention
    rcases hmention with rfl | rfl | rfl
    · exact ⟨.inRow 2 5, by decide, by decide +kernel, rfl⟩
    · exact ⟨.inColumn 3 5, by decide, by decide +kernel, rfl⟩
    · exact ⟨.inBox 1 5, by decide, by decide +kernel, rfl⟩
  · obtain ⟨-, htold, -⟩ := ofKeys?_exact .nine ["R02C3", "R2#5", "B001#005"]
    have hcell : (Constraint.cell 2 3).SpeltBy "R02C3" := ⟨⟨by decide, by decide⟩, 1, 0, by decide⟩
    have hrow : (Constraint.inRow 2 5).SpeltBy "R2#5" := ⟨⟨by decide, by decide⟩, 0, 0, by decide⟩
    have hbox : (Constraint.inBox 1 5).SpeltBy "B001#005" :=
      ⟨⟨by decide, by decide⟩, 2, 2, by decide⟩
    refine (htold ⟨11, 5, .nine⟩).mpr ⟨rfl, by decide, ?_, ⟨_, by simp, _, hcell, rfl⟩,
      ⟨_, by simp, _, hcell, rfl⟩, ⟨_, by simp, _, hbox, rfl⟩⟩
    simp only [List.forall_mem_cons, List.not_mem_nil, false_implies, implies_true, and_true]
    exact ⟨⟨_, by decide, hcell⟩, ⟨_, by decide, hrow⟩, ⟨_, by decide, hbox⟩⟩
  · obtain ⟨-, -, -, -, hnone⟩ := ofKeys?_exact .nine ["R02C3", "C3#6", "R2#5", "B001#005"]
    have hrow : (Constraint.inRow 2 5).SpeltBy "R2#5" := ⟨⟨by decide, by decide⟩, 0, 0, by decide⟩
    have hcolumn : (Constraint.inColumn 3 6).SpeltBy "C3#6" :=
      ⟨⟨by decide, by decide⟩, 0, 0, by decide⟩
    exact hnone.mpr (.disagree (show Constraint.digit? ∈ _ by simp)
      ⟨_, by simp, _, hrow, rfl⟩ ⟨_, by simp, _, hcolumn, rfl⟩ (by decide))

end Placement

end ExactCover.Sudoku
