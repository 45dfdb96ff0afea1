import ExactCover.Draw
import Mathlib.Data.List.Perm.Basic
import Mathlib.Data.Nat.Factorial.Basic
import Mathlib.Data.Set.Function
import Mathlib.Probability.Distributions.Uniform

/-!
# Draws without replacement

After a draw the last element takes the place of the one drawn, so what an index stands for depends
on all draws before it. Still no element is lost and none is there twice: with as many draws, the
indices and the ordered selections of elements determine each other. So if the indices are equally
likely, the selections are.

* **`Draw.IsDraw`**, **`Draw.IsSelection`**: the indices that can be drawn, and what they can yield.
* **`Draw.perm_of_pull?`**: the element drawn and those left are the ones from before.
* **`Draw.select_bijOn`**: indices and selections correspond, in every array without repeats.
* **`Draw.select_eq_places`**: what is drawn from a list are the elements at the places drawn.
* **`Draw.indices_uniform`**: the chance of some indices, if each of them is drawn uniformly.
* **`Draw.sampleBy_unbiased`**: the result for every list and every source of indices.
-/

namespace ExactCover

/-! ## The generator -/

namespace Generator

/-- The high half of a word times `b` is below `b`. -/
theorem wideProduct_le (a b : UInt64) : (wideProduct a b).1.toNat ≤ b.toNat - 1 := by
  have ha : a.toNat < UInt64.size := a.toNat_lt_size
  have hb : b.toNat < UInt64.size := b.toNat_lt_size
  have hhigh : a.toNat * b.toNat / UInt64.size ≤ b.toNat - 1 := by
    rcases Nat.eq_zero_or_pos b.toNat with hzero | hpos
    · simp [hzero]
    · exact Nat.le_pred_of_lt (Nat.div_lt_of_lt_mul (Nat.mul_lt_mul_of_pos_right ha hpos))
  rw [wideProduct, UInt64.toNat_ofNat_of_lt' (by omega)]
  exact hhigh

theorem drawBelow_le (n threshold : UInt64) (fuel : Nat) (g : Generator) :
    (drawBelow n threshold fuel g).1 ≤ n.toNat - 1 := by
  induction fuel generalizing g with
  | zero => exact Nat.zero_le _
  | succ fuel ih =>
    simp only [drawBelow]
    split
    · exact ih _
    · exact wideProduct_le _ n

/-- The generator answers a bound with a number below it. -/
theorem below_lt {n : Nat} (hn : 0 < n) (g : Generator) : (g.below n).1 < n := by
  have hle := drawBelow_le (UInt64.ofNat n) ((0 - UInt64.ofNat n) % UInt64.ofNat n) UInt64.size g
  have hword : (UInt64.ofNat n).toNat ≤ n := by
    rw [UInt64.toNat_ofNat']
    exact Nat.mod_le n _
  rw [below]
  omega

end Generator

namespace Draw

variable {α β : Type}

/-! ## One draw -/

/-- An index that is not too large draws the element there, and nothing gets lost: the element drawn
and those left are the elements from before. -/
theorem perm_of_pull? {xs : Array α} {i : Nat} (hi : i < xs.size) :
    ∃ left, pull? xs i = some (xs[i], left) ∧ (xs[i] :: left.toList).Perm xs.toList := by
  refine ⟨_, dif_pos hi, ?_⟩
  obtain ⟨l⟩ := xs
  obtain ⟨init, z, rfl⟩ : ∃ init z, l = init ++ [z] := by
    refine ⟨l.dropLast, l.getLast (List.ne_nil_of_length_pos (Nat.zero_lt_of_lt hi)), ?_⟩
    exact (List.dropLast_append_getLast _).symm
  simp only [List.getElem_toArray, List.set_toArray, List.back_toArray,
    List.getLast_append_singleton, List.pop_toArray]
  by_cases hlast : i < init.length
  · -- the last element moves to the place of the one drawn
    rw [List.getElem_append_left hlast, List.set_append_left i z hlast, List.dropLast_concat]
    have hset := (List.set_perm_cons_eraseIdx hlast z).cons init[i]
    have hdrawn := (List.getElem_cons_eraseIdx_perm hlast).cons z
    exact hset.trans ((List.Perm.swap z init[i] _).trans
      (hdrawn.trans (List.perm_append_singleton z init).symm))
  · -- the last element itself is drawn
    have hi' : i = init.length := by simp at hi; omega
    subst hi'
    simpa using (List.perm_append_singleton z init).symm

theorem pull?_map (f : α → β) (xs : Array α) (i : Nat) :
    pull? (xs.map f) i = (pull? xs i).map fun (x, left) => (f x, left.map f) := by
  unfold pull?
  by_cases hi : i < xs.size
  · rw [dif_pos hi, dif_pos (by simpa using hi)]
    simp [Array.back]
  · rw [dif_neg hi, dif_neg (by simpa using hi)]
    rfl

/-! ## All draws -/

/-- What can be drawn from a list of some length without putting back: each index is below the
length of what is left at its turn. -/
structure IsDraw (length amount : Nat) (is : List Nat) : Prop where
  count : is.length = amount
  below : ∀ j i, is[j]? = some i → i < length - j

/-- An ordered selection of so many different places in a list. -/
structure IsSelection (length amount : Nat) (ps : List Nat) : Prop where
  count : ps.length = amount
  nodup : ps.Nodup
  inside : ∀ p ∈ ps, p < length

/-- The places, in a list of some length, of the elements that the indices draw. -/
def places (length : Nat) (is : List Nat) : List Nat := select (List.range length).toArray is

theorem isDraw_cons {length amount i : Nat} {rest : List Nat} :
    IsDraw length (amount + 1) (i :: rest) ↔ i < length ∧ IsDraw (length - 1) amount rest := by
  constructor
  · intro h
    refine ⟨h.below 0 i rfl, Nat.succ.inj h.count, fun j k hk => ?_⟩
    have hlt := h.below (j + 1) k (by simpa using hk)
    omega
  · rintro ⟨hi, hrest⟩
    refine ⟨congrArg Nat.succ hrest.count, fun j k hk => ?_⟩
    cases j with
    | zero =>
      cases hk
      exact hi
    | succ j =>
      have hlt := hrest.below j k (by simpa using hk)
      omega

theorem select_cons_of_pull? {xs left : Array α} {i : Nat} {x : α}
    (h : pull? xs i = some (x, left)) (rest : List Nat) :
    select xs (i :: rest) = x :: select left rest := by
  simp [select, h]

/-- What is drawn does not depend on what the elements are. -/
theorem select_map (f : α → β) (xs : Array α) (is : List Nat) :
    select (xs.map f) is = (select xs is).map f := by
  induction is generalizing xs with
  | nil => rfl
  | cons i rest ih =>
    simp only [select, pull?_map]
    cases pull? xs i with
    | none => exact ih xs
    | some drawn => simp [ih]

section Nodup

variable {xs : Array α} {amount : Nat} {is is' : List Nat}

/-- Where no element is there twice, the one drawn is not left, and those left are different. -/
theorem pull?_of_nodup {i : Nat} (hxs : xs.toList.Nodup) (hi : i < xs.size) :
    ∃ left, pull? xs i = some (xs[i], left) ∧ xs.size - 1 = left.size ∧ xs[i] ∉ left.toList ∧
      left.toList.Nodup ∧ (xs[i] :: left.toList).Perm xs.toList := by
  obtain ⟨left, hpull, hperm⟩ := perm_of_pull? hi
  obtain ⟨hfresh, hleft⟩ := List.nodup_cons.mp (hperm.nodup_iff.mpr hxs)
  have hsize := size_of_pull? hpull
  exact ⟨left, hpull, by omega, hfresh, hleft, hperm⟩

/-- So many elements are drawn, and each of them once. -/
theorem select_of_isDraw (hxs : xs.toList.Nodup) (h : IsDraw xs.size amount is) :
    (select xs is).length = amount ∧ (select xs is).Nodup ∧ select xs is ⊆ xs.toList := by
  induction is generalizing xs amount with
  | nil =>
    obtain rfl := h.count
    exact ⟨rfl, List.nodup_nil, List.nil_subset _⟩
  | cons i rest ih =>
    obtain rfl := h.count
    obtain ⟨hi, hrest⟩ := isDraw_cons.mp h
    obtain ⟨left, hpull, hsize, hfresh, hleft, hperm⟩ := pull?_of_nodup hxs hi
    rw [hsize] at hrest
    obtain ⟨hlength, hnodup, hsub⟩ := ih hleft hrest
    rw [select_cons_of_pull? hpull]
    refine ⟨by simp [hlength], List.nodup_cons.mpr ⟨fun hmem => hfresh (hsub hmem), hnodup⟩, ?_⟩
    intro x hx
    refine hperm.subset ?_
    exact List.cons_subset_cons _ hsub hx

/-- Other indices draw other elements. -/
theorem select_injective (hxs : xs.toList.Nodup) (h : IsDraw xs.size amount is)
    (h' : IsDraw xs.size amount is') (heq : select xs is = select xs is') : is = is' := by
  induction is generalizing xs amount is' with
  | nil =>
    obtain rfl := h.count
    exact (List.eq_nil_of_length_eq_zero h'.count).symm
  | cons i rest ih =>
    obtain rfl := h.count
    obtain ⟨i', rest', rfl⟩ := List.exists_cons_of_length_eq_add_one h'.count
    obtain ⟨hi, hrest⟩ := isDraw_cons.mp h
    obtain ⟨hi', hrest'⟩ := isDraw_cons.mp h'
    obtain ⟨left, hpull, hsize, -, hleft, -⟩ := pull?_of_nodup hxs hi
    obtain ⟨left', hpull', -⟩ := pull?_of_nodup hxs hi'
    rw [select_cons_of_pull? hpull, select_cons_of_pull? hpull'] at heq
    obtain ⟨hhead, htail⟩ := List.cons.inj heq
    -- no element is there twice, so both first indices are the same
    obtain rfl : i = i' := by
      have hget : xs.toList[i] = xs.toList[i'] := by simpa using hhead
      exact (hxs.getElem_inj_iff).mp hget
    cases hpull.symm.trans hpull'
    rw [hsize] at hrest hrest'
    rw [ih hleft hrest hrest' htail]

/-- All different elements can be drawn, in any order. -/
theorem exists_select {ys : List α} (hys : ys.Nodup) (hsub : ys ⊆ xs.toList) :
    ∃ is, IsDraw xs.size ys.length is ∧ select xs is = ys := by
  induction ys generalizing xs with
  | nil => exact ⟨[], ⟨rfl, by simp⟩, rfl⟩
  | cons y ys ih =>
    obtain ⟨hfresh, hrest⟩ := List.nodup_cons.mp hys
    obtain ⟨hy, hrestsub⟩ := List.cons_subset.mp hsub
    obtain ⟨i, hi, rfl⟩ := List.getElem_of_mem hy
    have hlt : i < xs.size := by simpa using hi
    obtain ⟨left, hpull, hperm⟩ := perm_of_pull? hlt
    have hleft : ys ⊆ left.toList := fun x hx => by
      rcases List.mem_cons.mp (hperm.symm.subset (hrestsub hx)) with rfl | hmem
      · exact absurd hx (by simpa using hfresh)
      · exact hmem
    obtain ⟨is, his, heq⟩ := ih hrest hleft
    refine ⟨i :: is, isDraw_cons.mpr ⟨hlt, ?_⟩, ?_⟩
    · rwa [← size_of_pull? hpull, Nat.add_sub_cancel]
    · rw [select_cons_of_pull? hpull, heq]
      simp

/-- **The indices that can be drawn and the ordered selections of elements correspond.** -/
theorem select_bijOn (hxs : xs.toList.Nodup) (amount : Nat) :
    Set.BijOn (select xs) {is | IsDraw xs.size amount is}
      {ys | ys.length = amount ∧ ys.Nodup ∧ ys ⊆ xs.toList} := by
  refine ⟨fun is h => select_of_isDraw hxs h, fun is h is' h' => select_injective hxs h h', ?_⟩
  rintro ys ⟨rfl, hnodup, hsub⟩
  exact exists_select hnodup hsub

end Nodup

/-- The same in terms of places in a list. -/
theorem places_bijOn (length amount : Nat) :
    Set.BijOn (places length) {is | IsDraw length amount is}
      {ps | IsSelection length amount ps} := by
  have hnodup : (List.range length).toArray.toList.Nodup := by simpa using List.nodup_range
  have hbij := select_bijOn hnodup amount
  have hselections : {ps | IsSelection length amount ps} = {ps | ps.length = amount ∧ ps.Nodup ∧
      ps ⊆ (List.range length).toArray.toList} := by
    ext ps
    constructor
    · intro h
      exact ⟨h.count, h.nodup, fun p hp => by simpa using h.inside p hp⟩
    · rintro ⟨hcount, hnodup, hsub⟩
      exact ⟨hcount, hnodup, fun p hp => by simpa using hsub hp⟩
  have hsize : (List.range length).toArray.size = length := by simp
  rw [hsize] at hbij
  rw [hselections]
  exact hbij

/-- **What is drawn from a list are the elements at the places drawn.** -/
theorem select_eq_places (xs : List α) (is : List Nat) :
    (select xs.toArray is).map some = (places xs.length is).map (xs[·]?) := by
  rw [← select_map, places, ← select_map]
  congr 1
  refine Array.ext_getElem? fun i => ?_
  by_cases hi : i < xs.length <;> simp [hi]

/-! ## Any source of indices -/

section Source

variable {σ : Type} {below : Nat → StateM σ Nat}

theorem run_indices_succ (amount length : Nat) (s : σ) :
    (indices below (amount + 1) length).run s =
      let (i, s₁) := (below length).run s
      let (rest, s₂) := (indices below amount (length - 1)).run s₁
      (i :: rest, s₂) := rfl

/-- A source that answers a bound with a number below it yields indices that can be drawn. -/
theorem isDraw_indices (hbelow : ∀ n s, 0 < n → ((below n).run s).1 < n) {amount length : Nat}
    (hle : amount ≤ length) (s : σ) :
    IsDraw length amount ((indices below amount length).run s).1 := by
  induction amount generalizing length s with
  | zero => exact ⟨rfl, fun j i hj => by cases hj⟩
  | succ amount ih =>
    rw [run_indices_succ]
    exact isDraw_cons.mpr ⟨hbelow length s (by omega), ih (by omega) _⟩

theorem run_sampleBy_of_le {amount : Nat} {xs : List α} (h : xs.length ≤ amount) (s : σ) :
    (sampleBy below amount xs).run s = (xs, s) := by
  rw [sampleBy, if_pos h]
  rfl

theorem run_sampleBy_of_lt {amount : Nat} {xs : List α} (h : amount < xs.length) (s : σ) :
    (sampleBy below amount xs).run s =
      let (is, s') := (indices below amount xs.length).run s
      (select xs.toArray is, s') := by
  rw [sampleBy, if_neg (by omega)]
  rfl

theorem run_below_lt {n : Nat} (hn : 0 < n) (g : Generator) :
    (StateT.run (m := Id) (fun g => g.below n) g).1 < n := by
  -- the run is opened by its equation, or else the bound on the words taken would be unfolded
  rw [StateT.run]
  exact Generator.below_lt hn g

theorem sample_eq (amount : Nat) (xs : List α) (g : Generator) :
    sample amount xs g =
      (sampleBy (m := StateM Generator) (fun n g => g.below n) amount xs).run g :=
  rfl

end Source

/-! ## Equal chances -/

/-- A source whose answers to a bound are all the numbers below it, each as likely as the others. -/
noncomputable def uniform (n : Nat) : PMF Nat :=
  if h : n ≠ 0 then PMF.uniformOfFinset (Finset.range n) (Finset.nonempty_range_iff.mpr h)
  else PMF.pure 0

/-- The chance of an outcome that comes from one result only is the chance of that result. -/
theorem map_apply_of_unique {p : PMF α} {f : α → β} {a : α}
    (h : ∀ a' ∈ p.support, f a' = f a → a' = a) : p.map f (f a) = p a := by
  rw [PMF.map_apply, tsum_eq_single a]
  · rw [if_pos rfl]
  · intro a' hne
    split
    · next heq => exact (PMF.apply_eq_zero_iff p a').mpr fun hmem => hne (h a' hmem heq.symm)
    · rfl

section Uniform

variable {n i length amount : Nat} {is rest ps : List Nat}

theorem uniform_apply (hi : i < n) : uniform n i = (n : ENNReal)⁻¹ := by
  have hn : n ≠ 0 := by omega
  rw [uniform, dif_pos hn, PMF.uniformOfFinset_apply_of_mem _ (Finset.mem_range.mpr hi),
    Finset.card_range]

theorem lt_of_mem_support_uniform (hn : n ≠ 0) (hi : i ∈ (uniform n).support) : i < n := by
  rw [uniform, dif_pos hn, PMF.mem_support_uniformOfFinset_iff] at hi
  exact Finset.mem_range.mp hi

theorem indices_uniform_zero : indices uniform 0 length = PMF.pure [] := rfl

theorem indices_uniform_succ : indices uniform (amount + 1) length =
    (uniform length).bind fun i => (indices uniform amount (length - 1)).map (i :: ·) := rfl

/-- Only indices that can be drawn have a chance. -/
theorem isDraw_of_mem_support (hle : amount ≤ length)
    (h : is ∈ (indices uniform amount length).support) : IsDraw length amount is := by
  induction amount generalizing length is with
  | zero =>
    rw [indices_uniform_zero, PMF.support_pure, Set.mem_singleton_iff] at h
    subst h
    exact ⟨rfl, fun j i hj => by cases hj⟩
  | succ amount ih =>
    rw [indices_uniform_succ, PMF.mem_support_bind_iff] at h
    obtain ⟨i, hi, hmap⟩ := h
    obtain ⟨rest, hrest, rfl⟩ := (PMF.mem_support_map_iff _ _ _).mp hmap
    exact isDraw_cons.mpr ⟨lt_of_mem_support_uniform (by omega) hi, ih (by omega) hrest⟩

/-- Draws do not depend on each other. -/
theorem indices_uniform_cons : indices uniform (amount + 1) length (i :: rest) =
    uniform length i * indices uniform amount (length - 1) rest := by
  rw [indices_uniform_succ, PMF.bind_apply, tsum_eq_single i]
  · rw [map_apply_of_unique (f := (i :: ·)) fun rest' _ heq => (List.cons.inj heq).2]
  · intro i' hne
    have hzero : (indices uniform amount (length - 1)).map (i' :: ·) (i :: rest) = 0 := by
      rw [PMF.apply_eq_zero_iff, PMF.mem_support_map_iff]
      rintro ⟨rest', -, heq⟩
      exact hne (List.cons.inj heq).1
    rw [hzero, mul_zero]

/-- **All indices that can be drawn are equally likely.** -/
theorem indices_uniform (h : IsDraw length amount is) :
    indices uniform amount length is = (length.descFactorial amount : ENNReal)⁻¹ := by
  induction is generalizing length amount with
  | nil =>
    obtain rfl := h.count
    rw [List.length_nil, indices_uniform_zero, PMF.pure_apply_self, Nat.descFactorial_zero,
      Nat.cast_one, inv_one]
  | cons i rest ih =>
    obtain rfl := h.count
    obtain ⟨hi, hrest⟩ := isDraw_cons.mp h
    obtain ⟨length, rfl⟩ := Nat.exists_eq_succ_of_ne_zero (Nat.ne_zero_of_lt hi)
    rw [List.length_cons, indices_uniform_cons, uniform_apply hi, ih hrest,
      ← ENNReal.mul_inv (.inl (Nat.cast_ne_zero.mpr (Nat.succ_ne_zero length)))
        (.inl (ENNReal.natCast_ne_top _)), ← Nat.cast_mul, Nat.succ_sub_one,
      Nat.succ_descFactorial_succ]

/-- **All ordered selections of places are equally likely.** -/
theorem sampleBy_uniform (h : amount < length) (hps : IsSelection length amount ps) :
    sampleBy uniform amount (List.range length) ps =
      (length.descFactorial amount : ENNReal)⁻¹ := by
  have hmap : sampleBy uniform amount (List.range length) =
      (indices uniform amount length).map (places length) := by
    rw [sampleBy, List.length_range, if_neg (by omega)]
    rfl
  obtain ⟨is, his, rfl⟩ := (places_bijOn length amount).surjOn hps
  rw [hmap, map_apply_of_unique fun is' hmem heq => ?_, indices_uniform his]
  exact (places_bijOn length amount).injOn (isDraw_of_mem_support (by omega) hmem) his heq

end Uniform

/-! ## Every list -/

/-- **Sampling is an unbiased draw without replacement.** Where no more elements are there than are
asked for, the list is answered as it is. Otherwise let a source answer every bound with a number
below it, whichever. Then it yields indices that can be drawn, and what is answered are the elements
at the places that these indices draw. The indices that can be drawn and the ordered selections of
so many different places determine each other. So if the source answers with all numbers below the
bound equally likely, each ordered selection of places has the same chance. -/
theorem sampleBy_unbiased {σ : Type} (below : Nat → StateM σ Nat)
    (hbelow : ∀ n s, 0 < n → ((below n).run s).1 < n) (amount : Nat) (xs : List α) :
    (xs.length ≤ amount → ∀ s, (sampleBy below amount xs).run s = (xs, s)) ∧
      (amount < xs.length →
        (∀ s, ∃ is s' drawn, (indices below amount xs.length).run s = (is, s') ∧
          IsDraw xs.length amount is ∧ (sampleBy below amount xs).run s = (drawn, s') ∧
          drawn.map some = (places xs.length is).map (xs[·]?)) ∧
        Set.BijOn (places xs.length) {is | IsDraw xs.length amount is}
          {ps | IsSelection xs.length amount ps} ∧
        ∀ ps, IsSelection xs.length amount ps →
          sampleBy uniform amount (List.range xs.length) ps =
            (xs.length.descFactorial amount : ENNReal)⁻¹) := by
  refine ⟨run_sampleBy_of_le,
    fun h => ⟨fun s => ?_, places_bijOn _ _, fun ps => sampleBy_uniform h⟩⟩
  exact ⟨_, _, _, rfl, isDraw_indices hbelow (Nat.le_of_lt h) s, run_sampleBy_of_lt h s,
    select_eq_places xs _⟩

/-- Two of four elements, by the numbers of a generator. There are twelve ordered pairs. -/
theorem sampleBy_unbiased_pair :
    ∃ is drawn g, IsDraw 4 2 is ∧ sample 2 ["a", "b", "c", "d"] ⟨42⟩ = (drawn, g) ∧
      drawn.map some = (places 4 is).map (["a", "b", "c", "d"][·]?) ∧
      Set.BijOn (places 4) {is | IsDraw 4 2 is} {ps | IsSelection 4 2 ps} ∧
      sampleBy uniform 2 (List.range 4) [3, 0] = (12 : ENNReal)⁻¹ := by
  obtain ⟨-, hlt⟩ := sampleBy_unbiased (σ := Generator) (fun n g => g.below n)
    (fun _ g hn => run_below_lt hn g) 2 ["a", "b", "c", "d"]
  obtain ⟨hdrawn, hbij, hchance⟩ := hlt (by decide)
  obtain ⟨is, g, drawn, -, his, hsample, hplaces⟩ := hdrawn ⟨42⟩
  rw [← sample_eq] at hsample
  have hpair : IsSelection 4 2 [3, 0] := ⟨by decide, by decide, by decide⟩
  refine ⟨is, drawn, g, his, hsample, hplaces, hbij, ?_⟩
  have hcount : ["a", "b", "c", "d"].length.descFactorial 2 = 12 := by decide
  have hthree := hchance [3, 0] hpair
  rw [hcount, Nat.cast_ofNat] at hthree
  exact hthree

end Draw

end ExactCover
