import Mathlib.Data.List.Forall2

/-!
# Steps that may fail

A step gives a result or fails, and steps that are taken one after the other stop at the first one
that fails. So a list is gone through if every step of it succeeds, and else it fails as its first
step does that fails, before which all others succeeded.

* **`bind_eq_ok`**, **`bind_eq_error`**: two steps.
* **`mapM_eq_ok_iff`**, **`mapM_eq_error_iff`**: one step for each element of a list.
* **`foldlM_eq_error_iff`**: the same where each step goes on from the results before it.
* **`mapM_eq_some_iff`**: steps that fail without saying why.
-/

namespace ExactCover

/-! ## Two steps -/

/-- A step that succeeded hands its result on. -/
@[simp] theorem ok_bind {ε α β : Type} (x : α) (f : α → Except ε β) : (Except.ok x >>= f) = f x :=
  rfl

@[simp] theorem pure_eq_ok {ε α : Type} (x : α) : (pure x : Except ε α) = .ok x := rfl

/-- Two steps succeed if the first one does, and then the second one on its result. -/
theorem bind_eq_ok {ε α β : Type} {x : Except ε α} {f : α → Except ε β} {y : β} :
    (x >>= f) = .ok y ↔ ∃ a, x = .ok a ∧ f a = .ok y := by
  constructor
  · intro h
    cases x with
    | error e => cases h
    | ok a => exact ⟨a, rfl, h⟩
  · rintro ⟨a, rfl, h⟩
    exact h

/-- A step that failed is the last one. -/
theorem error_bind {ε α β : Type} {e : ε} (f : α → Except ε β) :
    (Except.error e >>= f) = .error e := rfl

/-- Two steps fail if the first one does, or if it succeeds and the second one fails on its
result. -/
theorem bind_eq_error {ε α β : Type} {x : Except ε α} {f : α → Except ε β} {e : ε} :
    (x >>= f) = .error e ↔ x = .error e ∨ ∃ y, x = .ok y ∧ f y = .error e := by
  cases x <;> simp [error_bind]

/-! ## Lists of steps -/

/-- Steps that are known to succeed on each element, with results that are known. -/
theorem mapM_eq_ok {ε α β : Type} {f : α → Except ε β} {g : α → β} {l : List α}
    (h : ∀ x ∈ l, f x = .ok (g x)) : l.mapM f = .ok (l.map g) := by
  induction l with
  | nil => rfl
  | cons x l ih =>
    have hx := h x (by simp)
    have hl := ih fun y hy => h y (by simp [hy])
    simp [List.mapM_cons, hx, hl]

/-- A search whose tests are known to succeed finds what it would find without them. -/
theorem findM?_eq_ok {ε α : Type} {p : α → Except ε Bool} {q : α → Bool} {l : List α}
    (h : ∀ x ∈ l, p x = .ok (q x)) : l.findM? p = .ok (l.find? q) := by
  induction l with
  | nil => rfl
  | cons x l ih =>
    have hx := h x (by simp)
    have hl := ih fun y hy => h y (by simp [hy])
    cases hq : q x <;> simp [List.findM?, hx, hl, hq]

section Steps

variable {ε α β : Type} {f : α → Except ε β} {xs : List α} {e : ε}

/-- **A list is gone through** if each of its elements is, and the results are in the order of the
elements. Induction on the list. -/
theorem mapM_eq_ok_iff {ys : List β} :
    xs.mapM f = .ok ys ↔ List.Forall₂ (fun x y => f x = .ok y) xs ys := by
  induction xs generalizing ys with
  | nil => cases ys <;> simp
  | cons x xs ih =>
    rw [List.mapM_cons, bind_eq_ok, List.forall₂_cons_left_iff]
    constructor
    · rintro ⟨y, hy, hrest⟩
      obtain ⟨ys', hys', heq⟩ := bind_eq_ok.mp hrest
      cases heq
      exact ⟨y, ys', hy, ih.mp hys', rfl⟩
    · rintro ⟨y, ys', hy, hys', rfl⟩
      exact ⟨y, hy, bind_eq_ok.mpr ⟨ys', ih.mpr hys', rfl⟩⟩

/-- A list fails at its first element, or there is a result for that one and the rest fails. -/
theorem mapM_cons_eq_error {x : α} :
    (x :: xs).mapM f = .error e ↔
      f x = .error e ∨ (∃ y, f x = .ok y) ∧ xs.mapM f = .error e := by
  rw [List.mapM_cons, bind_eq_error]
  refine or_congr_right ⟨?_, ?_⟩
  · rintro ⟨y, hy, hrest⟩
    rcases bind_eq_error.mp hrest with hrest | ⟨ys, -, hnil⟩
    · exact ⟨⟨y, hy⟩, hrest⟩
    · cases hnil
  · rintro ⟨⟨y, hy⟩, hrest⟩
    exact ⟨y, hy, bind_eq_error.mpr (.inl hrest)⟩

/-- **Otherwise it fails at one of its elements,** with the error of that one, and all elements
before it have results. So the error says nothing of the elements after it. -/
theorem mapM_eq_error_iff :
    xs.mapM f = .error e ↔ ∃ before x after, xs = before ++ x :: after ∧
      (∀ y ∈ before, ∃ z, f y = .ok z) ∧ f x = .error e := by
  induction xs with
  | nil => simp
  | cons x xs ih =>
    rw [mapM_cons_eq_error, ih]
    constructor
    · rintro (hx | ⟨hx, before, y, after, rfl, hbefore, hy⟩)
      · exact ⟨[], x, xs, rfl, by simp, hx⟩
      · exact ⟨x :: before, y, after, rfl, List.forall_mem_cons.mpr ⟨hx, hbefore⟩, hy⟩
    · rintro ⟨before, y, after, hsplit, hbefore, hy⟩
      rcases List.cons_eq_append_iff.mp hsplit with ⟨rfl, hcons⟩ | ⟨before', rfl, rfl⟩
      · cases hcons
        exact .inl hy
      · obtain ⟨hx, hbefore⟩ := List.forall_mem_cons.mp hbefore
        exact .inr ⟨hx, before', y, after, rfl, hbefore, hy⟩

/-- The same where each step goes on from what the steps before it have come to. -/
theorem foldlM_eq_error_iff {σ : Type} {g : σ → α → Except ε σ} {s : σ} :
    xs.foldlM g s = .error e ↔ ∃ before x after s', xs = before ++ x :: after ∧
      before.foldlM g s = .ok s' ∧ g s' x = .error e := by
  induction xs generalizing s with
  | nil =>
    constructor
    · rintro ⟨⟩
    · rintro ⟨before, x, after, s', hsplit, -⟩
      simp at hsplit
  | cons x xs ih =>
    rw [List.foldlM_cons, bind_eq_error]
    constructor
    · rintro (hx | ⟨s₁, hx, hrest⟩)
      · exact ⟨[], x, xs, s, rfl, rfl, hx⟩
      · obtain ⟨before, y, after, s', rfl, hbefore, hy⟩ := ih.mp hrest
        refine ⟨x :: before, y, after, s', rfl, ?_, hy⟩
        rw [List.foldlM_cons]
        exact bind_eq_ok.mpr ⟨s₁, hx, hbefore⟩
    · rintro ⟨before, y, after, s', hsplit, hbefore, hy⟩
      rcases List.cons_eq_append_iff.mp hsplit with ⟨rfl, hcons⟩ | ⟨before', rfl, rfl⟩
      · cases hcons
        cases hbefore
        exact .inl hy
      · rw [List.foldlM_cons] at hbefore
        obtain ⟨s₁, hx, hbefore⟩ := bind_eq_ok.mp hbefore
        exact .inr ⟨s₁, hx, ih.mpr ⟨before', y, after, s', rfl, hbefore, hy⟩⟩

end Steps

/-- The same for steps that do not say why they fail, of whose failure there is nothing to tell. -/
theorem mapM_eq_some_iff {α β : Type} {f : α → Option β} {xs : List α} {ys : List β} :
    xs.mapM f = some ys ↔ List.Forall₂ (fun x y => f x = some y) xs ys := by
  induction xs generalizing ys with
  | nil => cases ys <;> simp
  | cons x xs ih =>
    simp only [List.mapM_cons, Option.bind_eq_bind, Option.bind_eq_some_iff, Option.pure_def,
      Option.some.injEq, List.forall₂_cons_left_iff, ih]
    constructor
    · rintro ⟨y, hy, ys', hys', rfl⟩
      exact ⟨y, ys', hy, hys', rfl⟩
    · rintro ⟨y, ys', hy, hys', rfl⟩
      exact ⟨y, hy, ys', hys', rfl⟩

/-! ## Lists side by side -/

/-- Partners for each element on its own make a list of partners. -/
theorem exists_forall₂ {α β : Type} {R : α → β → Prop} {xs : List α}
    (h : ∀ x ∈ xs, ∃ y, R x y) : ∃ ys, List.Forall₂ R xs ys := by
  induction xs with
  | nil => exact ⟨[], .nil⟩
  | cons x xs ih =>
    obtain ⟨⟨y, hy⟩, hrest⟩ := List.forall_mem_cons.mp h
    obtain ⟨ys, hys⟩ := ih hrest
    exact ⟨y :: ys, .cons hy hys⟩

/-- Every partner is the partner of some element. -/
theorem exists_of_forall₂ {α β : Type} {R : α → β → Prop} {xs : List α} {ys : List β}
    (h : List.Forall₂ R xs ys) {y : β} (hy : y ∈ ys) : ∃ x ∈ xs, R x y := by
  induction h with
  | nil => cases hy
  | @cons x y' xs ys hhead _ ih =>
    rcases List.mem_cons.mp hy with rfl | hy
    · exact ⟨x, List.mem_cons_self, hhead⟩
    · obtain ⟨x', hx', hrel⟩ := ih hy
      exact ⟨x', List.mem_cons_of_mem x hx', hrel⟩

end ExactCover
