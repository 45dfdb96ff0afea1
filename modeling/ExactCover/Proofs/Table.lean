import ExactCover.Mesh
import Mathlib.Data.List.Induction
import Mathlib.Data.List.Nodup
import Mathlib.Data.List.Perm.Basic

/-!
# Plain tables

A matrix of zeros and ones, written down without any links: the keys of its columns in order, and
its rows in order, each as the columns that it meets. Columns are counted from one. What has been
covered is kept beside the table as a list of columns; a covered column is gone, and so is every row
that meets one.

* **`Table.addColumn`, `Table.addRow`**: the ways in which a table grows.
* **`Table.live`, `Table.through`**: the columns that are left, and the rows that are left in one.
* **`Table.cost`, `Table.costAll`**: how many ones go with a column, and with several ones.
-/

namespace ExactCover

/-- The elements after the first one that satisfies `p`, round to the ones before it. -/
def roundFrom {α : Type} (p : α → Bool) (l : List α) : List α :=
  (l.dropWhile fun x => !p x).tail ++ l.takeWhile fun x => !p x

theorem roundFrom_map {α β : Type} (p : β → Bool) (f : α → β) (l : List α) :
    roundFrom p (l.map f) = (roundFrom (p ∘ f) l).map f := by
  simp only [roundFrom, List.dropWhile_map, List.takeWhile_map, List.map_append, List.map_tail]
  rfl

/-- Read from one of its elements round to it again, a list has the same elements. -/
theorem perm_round {α : Type} (u v : List α) (x : α) : (x :: (v ++ u)).Perm (u ++ x :: v) := by
  rw [← List.cons_append]
  exact List.perm_append_comm

/-- The keys among the known ones, each where it comes first. -/
def named (known keys : List String) : List String := (keys.filter (· ∈ known)).eraseDups

/-- One more key is named if it is known and was not named before. -/
theorem named_append {known keys : List String} {key : String} :
    named known (keys ++ [key]) =
      named known keys ++ if key ∈ known ∧ key ∉ keys then [key] else [] := by
  rw [named, List.filter_append, List.eraseDups_append]
  refine congrArg (named known keys ++ ·) ?_
  by_cases hknown : key ∈ known
  · by_cases hkey : key ∈ keys <;> simp [List.removeAll, List.eraseDups_cons, hknown, hkey]
  · simp [List.removeAll, hknown]

/-- The keys of the columns, and for each row the columns that it meets. -/
structure Table where
  keys : List String
  rows : List (List ColumnId)
  deriving DecidableEq, Repr

namespace Table

/-! ## Growing -/

def empty : Table := ⟨[], []⟩

def columns (t : Table) : List ColumnId := List.range' 1 t.keys.length

def key (t : Table) (c : ColumnId) : String := (t.keys[c - 1]?).getD ""

/-- The columns that a row with these keys meets: for each key the first column that carries it. -/
def meets (t : Table) (keys : List String) : List ColumnId :=
  t.columns.filter fun c => t.key c ∈ keys ∧ t.keys.idxOf (t.key c) + 1 = c

def addColumn (key : String) (t : Table) : Table := { t with keys := t.keys ++ [key] }

/-- The table with one more row; a row that meets no column is left out. -/
def addRow (keys : List String) (t : Table) : Table :=
  if t.meets keys = [] then t else { t with rows := t.rows ++ [t.meets keys] }

def ofRows (columns : List String) (rows : List (List String)) : Table :=
  rows.foldl (fun t keys => t.addRow keys) (columns.foldl (fun t key => t.addColumn key) empty)

/-! ## What is left -/

/-- The columns that are not covered. -/
def live (t : Table) (covered : List ColumnId) : List ColumnId :=
  t.columns.filter fun c => c ∉ covered

/-- The rows through a column that meet no covered column. -/
def through (t : Table) (covered : List ColumnId) (c : ColumnId) : List (List ColumnId) :=
  t.rows.filter fun r => c ∈ r ∧ ∀ d ∈ r, d ∉ covered

/-- The number of ones that go when a column is covered: all those of the rows through it. -/
def cost (t : Table) (covered : List ColumnId) (c : ColumnId) : Nat :=
  (t.through covered c).flatten.length

/-- The number of ones that go when several columns are covered, one after the other. -/
def costAll (t : Table) : List ColumnId → List ColumnId → Nat
  | _, [] => 0
  | covered, c :: cs => t.cost covered c + t.costAll (c :: covered) cs

/-- The numbers of columns and of ones that are left. -/
def extent (t : Table) (covered : List ColumnId) : Nat × Nat :=
  let live := t.live covered
  (live.length, (live.flatMap (t.through covered)).length)

/-- The first column left with this key. -/
def find? (t : Table) (covered : List ColumnId) (key : String) : Option ColumnId :=
  (t.live covered).find? fun c => t.key c == key

section

variable {t : Table} {covered : List ColumnId} {c d : ColumnId}

theorem mem_columns {c : Nat} : c ∈ t.columns ↔ 1 ≤ c ∧ c ≤ t.keys.length := by
  rw [columns, List.mem_range'_1]
  omega

/-- What is covered is a list, and whether a column is in it is all that counts. -/
theorem mem_live : c ∈ t.live covered ↔ c ∈ t.columns ∧ c ∉ covered := by simp [live]

@[simp] theorem live_nil : t.live [] = t.columns := by simp [live]

/-- A row is left if none of its columns is covered. -/
theorem mem_through {r : List ColumnId} :
    r ∈ t.through covered c ↔ r ∈ t.rows ∧ c ∈ r ∧ ∀ d ∈ r, d ∉ covered := by simp [through]

theorem nodup_columns : t.columns.Nodup := List.nodup_range'

/-- Covering one more column takes it out of the live ones. -/
theorem live_cons : t.live (c :: covered) = (t.live covered).filter (· ≠ c) := by
  simp only [live, List.filter_filter]
  refine List.filter_congr fun d _ => ?_
  simp [List.mem_cons]

/-- Covering a live column leaves fewer of them. This is why a search ends. -/
theorem length_live_cons_lt (hc : c ∈ t.live covered) :
    (t.live (c :: covered)).length < (t.live covered).length := by
  rw [live_cons]
  exact List.length_filter_lt_length_iff_exists.mpr ⟨c, hc, by simp⟩

theorem length_live_cons_le : (t.live (c :: covered)).length ≤ (t.live covered).length := by
  rw [live_cons]
  exact List.length_filter_le _ _

/-- Covering several more columns leaves no more live ones. -/
theorem length_live_append_le {cs : List ColumnId} :
    (t.live (cs ++ covered)).length ≤ (t.live covered).length := by
  induction cs with
  | nil => exact Nat.le_refl _
  | cons c cs ih => exact Nat.le_trans length_live_cons_le ih

/-- Where columns are covered in two goes, the second one finds those of the first one covered. -/
theorem costAll_append (cs ds : List ColumnId) :
    t.costAll covered (cs ++ ds) = t.costAll covered cs + t.costAll (cs.reverse ++ covered) ds := by
  induction cs generalizing covered with
  | nil => simp [costAll]
  | cons c cs ih => simp [costAll, ih, Nat.add_assoc]

end

/-! ## Tables that are given by their columns and rows -/

section

variable {t : Table} {c d : ColumnId}

/-- What a row meets depends on the keys of the columns alone. -/
theorem meets_congr {t t' : Table} (h : t.keys = t'.keys) (keys : List String) :
    t.meets keys = t'.meets keys := by
  unfold meets columns key
  rw [h]

theorem keys_addRow (keys : List String) : (t.addRow keys).keys = t.keys := by
  unfold addRow
  split_ifs <;> rfl

theorem keys_addRows (rows : List (List String)) :
    (rows.foldl (fun t keys => t.addRow keys) t).keys = t.keys := by
  induction rows generalizing t with
  | nil => rfl
  | cons keys rows ih => rw [List.foldl_cons, ih, keys_addRow]

/-- The rows that are added are kept if they meet a column. -/
theorem mem_rows_addRows (rows : List (List String)) {r : List ColumnId} :
    r ∈ (rows.foldl (fun t keys => t.addRow keys) t).rows ↔
      r ∈ t.rows ∨ r ≠ [] ∧ ∃ keys ∈ rows, r = t.meets keys := by
  induction rows generalizing t with
  | nil => simp
  | cons keys rows ih =>
    have hmeets := fun keys' => meets_congr (keys_addRow keys (t := t)) keys'
    have hrow : r ∈ (t.addRow keys).rows ↔ r ∈ t.rows ∨ r ≠ [] ∧ r = t.meets keys := by
      unfold addRow
      split_ifs with hnil
      · simp only [hnil]
        tauto
      · simp only [List.mem_append, List.mem_singleton]
        constructor
        · rintro (hr | rfl)
          · exact Or.inl hr
          · exact Or.inr ⟨hnil, rfl⟩
        · rintro (hr | ⟨-, rfl⟩)
          · exact Or.inl hr
          · exact Or.inr rfl
    rw [List.foldl_cons, ih, hrow, or_assoc, ← and_or_left]
    simp only [hmeets, List.mem_cons, exists_eq_or_imp]

theorem keys_addColumns (columns : List String) :
    (columns.foldl (fun t key => t.addColumn key) t).keys = t.keys ++ columns := by
  induction columns generalizing t with
  | nil => simp
  | cons key columns ih =>
    rw [List.foldl_cons, ih]
    simp [addColumn]

theorem rows_addColumns (columns : List String) :
    (columns.foldl (fun t key => t.addColumn key) t).rows = t.rows := by
  induction columns generalizing t with
  | nil => rfl
  | cons key columns ih => rw [List.foldl_cons, ih]; rfl

theorem keys_ofRows (columns : List String) (rows : List (List String)) :
    (ofRows columns rows).keys = columns := by
  rw [ofRows, keys_addRows, keys_addColumns]
  rfl

/-- The rows of a table are those that were given, without the ones that meet no column. -/
theorem mem_rows_ofRows {columns : List String} {rows : List (List String)} {r : List ColumnId} :
    r ∈ (ofRows columns rows).rows ↔
      r ≠ [] ∧ ∃ keys ∈ rows, r = (ofRows columns rows).meets keys := by
  have hkeys : (columns.foldl (fun t key => t.addColumn key) empty).keys =
      (ofRows columns rows).keys := by rw [ofRows, keys_addRows]
  have hmeets := meets_congr hkeys
  rw [ofRows, mem_rows_addRows, rows_addColumns]
  simp only [hmeets, ofRows]
  simp [empty]

/-- The rows of a table stand in the order in which they were given. -/
theorem rows_addRows (rows : List (List String)) :
    (rows.foldl (fun t keys => t.addRow keys) t).rows =
      t.rows ++ (rows.map t.meets).filter (· ≠ []) := by
  induction rows generalizing t with
  | nil => simp
  | cons keys rows ih =>
    have hmeets : (t.addRow keys).meets = t.meets := funext (meets_congr (keys_addRow keys))
    rw [List.foldl_cons, ih, hmeets, List.map_cons, List.filter_cons]
    unfold addRow
    split_ifs with hnil <;> simp_all

/-- All columns are added before the rows, so the rows meet the columns of the finished table. -/
theorem rows_ofRows (columns : List String) (rows : List (List String)) :
    (ofRows columns rows).rows = (rows.map (ofRows columns rows).meets).filter (· ≠ []) := by
  have hkeys : (columns.foldl (fun t key => t.addColumn key) empty).keys =
      (ofRows columns rows).keys := by rw [ofRows, keys_addRows]
  have hmeets := funext (meets_congr hkeys)
  rw [ofRows, rows_addRows, rows_addColumns, hmeets]
  rfl

/-- Column by column, the keys are in the order in which they were added. -/
theorem map_key_columns (t : Table) : t.columns.map t.key = t.keys := by
  refine List.ext_getElem (by simp [columns]) fun i h h' => ?_
  simp [columns, key, List.getElem?_eq_getElem h']

theorem key_eq_getElem {c : Nat} (hc : c ∈ t.columns) :
    ∃ h : c - 1 < t.keys.length, t.key c = t.keys[c - 1] := by
  have hbounds := mem_columns.mp hc
  have h : c - 1 < t.keys.length := by omega
  exact ⟨h, by simp [key, List.getElem?_eq_getElem h]⟩

/-! ### The columns of a row -/

section

variable {key : String} {keys : List String}

theorem columns_addColumn : (t.addColumn key).columns = t.columns ++ [t.keys.length + 1] := by
  simp [columns, addColumn, List.range'_concat, Nat.add_comm]

theorem key_addColumn {c : Nat} (hc : c ∈ t.columns) : (t.addColumn key).key c = t.key c := by
  have hbounds := mem_columns.mp hc
  have hlt : c - 1 < t.keys.length := by omega
  simp [Table.key, addColumn, List.getElem?_append_left hlt]

theorem key_addColumn_last : (t.addColumn key).key (t.keys.length + 1) = key := by
  simp [Table.key, addColumn]

theorem key_mem_keys (hc : c ∈ t.columns) : t.key c ∈ t.keys := by
  rw [← map_key_columns]
  exact List.mem_map_of_mem hc

def Meets (t : Table) (keys : List String) (c : ColumnId) : Prop :=
  t.key c ∈ keys ∧ t.keys.idxOf (t.key c) + 1 = c

instance (c : ColumnId) : Decidable (t.Meets keys c) := inferInstanceAs (Decidable (_ ∧ _))

theorem meets_eq : t.meets keys = t.columns.filter (t.Meets keys ·) := rfl

theorem meets_sublist : (t.meets keys).Sublist t.columns := List.filter_sublist

/-- A row meets its columns in ascending order, whatever the order of its keys. -/
theorem meets_ascending : (t.meets keys).Pairwise (· < ·) := by
  have hcolumns : t.columns.Pairwise (· < ·) := List.pairwise_lt_range'
  exact hcolumns.sublist meets_sublist

/-- A row meets the first column that carries a key of it. -/
theorem meets_iff {c : Nat} (hc : c ∈ t.columns) :
    t.Meets keys c ↔ t.key c ∈ keys ∧ ∀ d ∈ t.columns, d < c → t.key d ≠ t.key c := by
  refine and_congr_right fun _ => ?_
  obtain ⟨hlt, hkey⟩ := key_eq_getElem hc
  have hbounds := mem_columns.mp hc
  have hindex : t.keys.idxOf (t.key c) + 1 = c ↔ t.keys.findIdx (· == t.key c) = c - 1 := by
    rw [List.idxOf]
    omega
  rw [hindex, List.findIdx_eq hlt]
  constructor
  · rintro ⟨-, hfirst⟩ (d : Nat) hd (hdc : d < c)
    obtain ⟨hlt', hkey'⟩ := key_eq_getElem hd
    have hdbounds := mem_columns.mp hd
    simpa [hkey'] using hfirst (d - 1) (by omega)
  · intro hfirst
    refine ⟨by simp [hkey], fun i hi => ?_⟩
    have hic : i + 1 < c := by omega
    have hne := hfirst (i + 1) (mem_columns.mpr (by omega)) hic
    simpa [key, List.getElem?_eq_getElem (Nat.lt_trans hi hlt)] using hne

/-- A new column is met by the rows that have its key, if no column before it has the same one. -/
theorem meets_addColumn :
    (t.addColumn key).meets keys =
      t.meets keys ++ if key ∈ keys ∧ key ∉ t.keys then [t.keys.length + 1] else [] := by
  rw [meets_eq, columns_addColumn, List.filter_append]
  have hold : t.columns.filter ((t.addColumn key).Meets keys ·) = t.meets keys := by
    refine List.filter_congr fun c hc => ?_
    simp only [Meets, key_addColumn hc]
    rw [addColumn, List.idxOf_append_of_mem (key_mem_keys hc)]
  have hnew : (t.addColumn key).Meets keys (t.keys.length + 1) ↔ key ∈ keys ∧ key ∉ t.keys := by
    rw [Meets, key_addColumn_last, addColumn, List.idxOf_append]
    refine and_congr_right fun _ => ?_
    split_ifs with hkey
    · have hlt := List.idxOf_lt_length_of_mem hkey
      exact ⟨fun heq => by omega, fun hnot => absurd hkey hnot⟩
    · simp [hkey]
  rw [hold, List.filter_cons]
  simp only [hnew, List.filter_nil, decide_eq_true_eq]

/-- The keys of the columns that a row meets are those of its keys that name a column, each of them
once and in the order of the columns. -/
theorem map_key_meets_named (t : Table) (keys : List String) :
    (t.meets keys).map t.key = named keys t.keys := by
  obtain ⟨columns, rows⟩ := t
  induction columns using List.reverseRecOn with
  | nil => rfl
  | append_singleton columns key ih =>
    let t : Table := ⟨columns, rows⟩
    have hkeep : (t.meets keys).map (t.addColumn key).key = (t.meets keys).map t.key :=
      List.map_congr_left fun c hc => key_addColumn (List.mem_of_mem_filter hc)
    show ((t.addColumn key).meets keys).map (t.addColumn key).key = named keys (columns ++ [key])
    rw [meets_addColumn, List.map_append, hkeep, ih, named_append]
    split_ifs
    · rw [List.map_singleton, key_addColumn_last]
    · rfl

end

/-- Where the covered columns are those with certain keys, the others have the other keys. -/
theorem map_key_live {covered : List ColumnId} {keys : List String}
    (h : ∀ c ∈ t.columns, c ∈ covered ↔ t.key c ∈ keys) :
    (t.live covered).map t.key = t.keys.filter (· ∉ keys) := by
  rw [← map_key_columns, List.filter_map, live]
  congr 1
  refine List.filter_congr fun c hc => ?_
  simp [h c hc]

/-! ### Counting ones -/

/-- Counting rows column by column, one row counts once for each of the columns that it meets. -/
theorem length_flatMap_filter_cons (cs r : List ColumnId) (rows : List (List ColumnId)) :
    (cs.flatMap fun c => (r :: rows).filter (c ∈ ·)).length =
      cs.countP (· ∈ r) + (cs.flatMap fun c => rows.filter (c ∈ ·)).length := by
  induction cs with
  | nil => rfl
  | cons c cs ih =>
    rw [List.flatMap_cons, List.flatMap_cons, List.length_append, List.length_append, ih,
      List.filter_cons, List.countP_cons]
    split_ifs
    · rw [List.length_cons]
      omega
    · omega

/-- Counted column by column or row by row, there are as many ones. -/
theorem length_flatMap_filter {cs : List ColumnId} {rows : List (List ColumnId)} (hcs : cs.Nodup)
    (hrows : ∀ r ∈ rows, r.Nodup ∧ ∀ c ∈ r, c ∈ cs) :
    (cs.flatMap fun c => rows.filter (c ∈ ·)).length = rows.flatten.length := by
  induction rows with
  | nil => simp
  | cons r rows ih =>
    obtain ⟨⟨hnodup, hinside⟩, hrest⟩ := List.forall_mem_cons.mp hrows
    have hperm : (cs.filter (· ∈ r)).Perm r := by
      refine (List.perm_ext_iff_of_nodup (hcs.filter _) hnodup).mpr fun c => ?_
      rw [List.mem_filter, decide_eq_true_eq]
      exact and_iff_right_of_imp (hinside c)
    rw [length_flatMap_filter_cons, ih hrest, List.countP_eq_length_filter, hperm.length_eq,
      List.flatten_cons, List.length_append]

/-- The rows that meet no covered column. -/
def left (t : Table) (covered : List ColumnId) : List (List ColumnId) :=
  t.rows.filter fun r => ∀ d ∈ r, d ∉ covered

theorem through_eq_filter_left (covered : List ColumnId) (c : ColumnId) :
    t.through covered c = (t.left covered).filter (c ∈ ·) := by
  rw [through, left, List.filter_filter]
  exact List.filter_congr fun r _ => by simp

/-- **The ones below the columns that are left are those of the rows that are left.** -/
theorem extent_eq (hrows : ∀ r ∈ t.rows, r.Nodup ∧ ∀ c ∈ r, c ∈ t.columns)
    (covered : List ColumnId) :
    t.extent covered = ((t.live covered).length, (t.left covered).flatten.length) := by
  have hthrough : t.through covered = fun c => (t.left covered).filter (c ∈ ·) :=
    funext (through_eq_filter_left covered)
  have hleft : ∀ r ∈ t.left covered, r.Nodup ∧ ∀ c ∈ r, c ∈ t.live covered := by
    intro r hr
    obtain ⟨hr, hfree⟩ := List.mem_filter.mp hr
    obtain ⟨hnodup, hinside⟩ := hrows r hr
    refine ⟨hnodup, fun c hc => mem_live.mpr ⟨hinside c hc, ?_⟩⟩
    exact of_decide_eq_true hfree c hc
  have hlive : (t.live covered).Nodup := nodup_columns.filter _
  rw [extent, hthrough, length_flatMap_filter hlive hleft]

end

/-! ## Tables in which no two columns have the same key -/

section

variable {t : Table} {c d : ColumnId}

theorem exists_column {k : String} (hk : k ∈ t.keys) : ∃ c ∈ t.columns, t.key c = k := by
  obtain ⟨i, hi, rfl⟩ := List.getElem_of_mem hk
  refine ⟨i + 1, mem_columns.mpr ⟨Nat.le_add_left _ _, hi⟩, ?_⟩
  simp [key, List.getElem?_eq_getElem hi]

/-- Where no key is there twice, a column is known by its key. -/
theorem key_injective {c d : Nat} (hnodup : t.keys.Nodup) (hc : c ∈ t.columns) (hd : d ∈ t.columns)
    (h : t.key c = t.key d) : c = d := by
  obtain ⟨hc', hkc⟩ := key_eq_getElem hc
  obtain ⟨hd', hkd⟩ := key_eq_getElem hd
  have hkeys : t.keys[c - 1] = t.keys[d - 1] := hkc.symm.trans (h.trans hkd)
  have hindex := hnodup.getElem_inj_iff.mp hkeys
  have := mem_columns.mp hc
  have := mem_columns.mp hd
  omega

/-- Where no key is there twice, a row meets the columns of its keys: none of them is the second one
with a key. -/
theorem mem_meets {c : Nat} (hnodup : t.keys.Nodup) {keys : List String} :
    c ∈ t.meets keys ↔ c ∈ t.columns ∧ t.key c ∈ keys := by
  rw [meets, List.mem_filter]
  refine and_congr_right fun hc => ?_
  obtain ⟨hc', hkey⟩ := key_eq_getElem hc
  have hfirst : t.keys.idxOf (t.key c) + 1 = c := by
    rw [hkey, hnodup.idxOf_getElem]
    have := mem_columns.mp hc
    omega
  simp [hfirst]

/-- The keys of the columns that a row meets, in the order of the columns. -/
theorem map_key_meets_eq (hnodup : t.keys.Nodup) (keys : List String) :
    (t.meets keys).map t.key = t.keys.filter (· ∈ keys) := by
  have hmeets : t.meets keys = t.columns.filter fun c => t.key c ∈ keys := by
    refine List.filter_congr fun c hc => ?_
    have hmem : c ∈ t.meets keys ↔ _ := mem_meets hnodup
    rw [meets, List.mem_filter, and_congr_right_iff] at hmem
    simpa using hmem hc
  rw [hmeets, ← map_key_columns, List.filter_map]
  rfl

/-- The keys of the columns that a row meets are the keys of the row. -/
theorem map_key_meets (hnodup : t.keys.Nodup) {keys : List String} (hkeys : keys.Nodup)
    (hmem : ∀ k ∈ keys, k ∈ t.keys) : ((t.meets keys).map t.key).Perm keys := by
  have hcolumns : (t.meets keys).Nodup := nodup_columns.filter _
  refine (List.perm_ext_iff_of_nodup ?_ hkeys).mpr fun k => ?_
  · refine hcolumns.map_on fun c hc d hd heq => key_injective hnodup ?_ ?_ heq
    · exact ((mem_meets hnodup).mp hc).1
    · exact ((mem_meets hnodup).mp hd).1
  · rw [List.mem_map]
    constructor
    · rintro ⟨c, hc, rfl⟩
      exact ((mem_meets hnodup).mp hc).2
    · intro hk
      obtain ⟨c, hc, rfl⟩ := exists_column (hmem k hk)
      exact ⟨c, (mem_meets hnodup).mpr ⟨hc, hk⟩, rfl⟩

end

end Table

end ExactCover
