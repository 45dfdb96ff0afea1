import ExactCover.Text.Numeral
import Mathlib.Data.List.Induction

/-!
# Numerals with zeros in front

A number is written with its decimal digits, and zeros in front of them do not matter. Nothing else
is read as that number.

* **`Text.digits?_eq_some_iff`**: what is read from digits is their value.
* **`Text.padded`**: the digits of a number after some zeros.
* **`Text.digits?_eq_some_iff_padded`**: digits that are read as a number are its own, after zeros.
-/

namespace ExactCover.Text

variable {cs : List Char} {c : Char} {n zeros : Nat}

theorem isDigit_of_mem_toDigits (h : c ∈ Nat.toDigits 10 n) : c.isDigit = true :=
  Nat.isDigit_of_mem_toDigits (by decide) (by decide) h

theorem toNat_of_isDigit (h : c.isDigit = true) : 48 ≤ c.toNat ∧ c.toNat ≤ 57 := by
  simpa [Char.isDigit, UInt32.le_iff_toNat_le] using h

/-- What is read as a number: digits alone, at least one, of a value that fits into 64 bits. -/
theorem digits?_eq_some_iff : digits? cs = some n ↔ cs ≠ [] ∧ (∀ c ∈ cs, c.isDigit = true) ∧
    Nat.ofDigitChars 10 cs 0 = n ∧ n < UInt64.size := by
  have hlargest : ∀ n, n ≤ largest ↔ n < UInt64.size := fun n => Nat.le_iff_lt_add_one
  have hvalue : cs.foldl (fun n c => 10 * n + digitValue c) 0 = Nat.ofDigitChars 10 cs 0 := rfl
  simp only [digits?, hvalue, Option.ite_none_right_eq_some, List.all_eq_true, hlargest, and_assoc,
    Option.some.injEq]
  constructor
  · rintro ⟨hne, hdigits, hfits, rfl⟩
    exact ⟨hne, hdigits, rfl, hfits⟩
  · rintro ⟨hne, hdigits, rfl, hfits⟩
    exact ⟨hne, hdigits, hfits, rfl⟩

/-! ## Zeros in front -/

/-- The digits of a number, after some zeros. -/
def padded (zeros n : Nat) : List Char := List.replicate zeros '0' ++ Nat.toDigits 10 n

theorem padded_ne_nil : padded zeros n ≠ [] := by simp [padded, Nat.toDigits_ne_nil]

theorem isDigit_of_mem_padded (h : c ∈ padded zeros n) : c.isDigit = true := by
  rcases List.mem_append.mp h with h | h
  · rw [List.eq_of_mem_replicate h]
    rfl
  · exact isDigit_of_mem_toDigits h

/-- Zeros in front of a number do not change it. -/
theorem ofDigitChars_padded : Nat.ofDigitChars 10 (padded zeros n) 0 = n := by
  rw [padded, Nat.ofDigitChars_append, Nat.ofDigitChars_replicate_zero, Nat.mul_zero]
  exact Nat.ofDigitChars_ten_toDigits

theorem toDigits_of_isDigit (h : c.isDigit = true) :
    c.toNat - '0'.toNat < 10 ∧ Nat.toDigits 10 (c.toNat - '0'.toNat) = [c] := by
  have hrange := toNat_of_isDigit h
  have hlt : c.toNat - '0'.toNat < 10 := by
    show c.toNat - 48 < 10
    omega
  refine ⟨hlt, ?_⟩
  rw [Nat.toDigits_of_lt_base hlt, List.cons.injEq]
  refine ⟨Char.toNat_inj.mp ?_, rfl⟩
  rw [Nat.toNat_digitChar_of_lt_ten hlt]
  show 48 + (c.toNat - 48) = c.toNat
  omega

/-- **Digits are those of their value, after some zeros.** Induction on the digits, from the last
one. As long as the value is zero, so are the digits before it. -/
theorem exists_padded (hne : cs ≠ []) (hdigits : ∀ c ∈ cs, c.isDigit = true) :
    ∃ zeros, cs = padded zeros (Nat.ofDigitChars 10 cs 0) := by
  induction cs using List.reverseRecOn with
  | nil => exact absurd rfl hne
  | append_singleton cs c ih =>
    obtain ⟨hdigits, hlast⟩ := List.forall_mem_append.mp hdigits
    obtain ⟨hlt, hc⟩ := toDigits_of_isDigit (hlast c List.mem_cons_self)
    rw [Nat.ofDigitChars_append, Nat.ofDigitChars_cons, Nat.ofDigitChars_nil]
    by_cases hcs : cs = []
    · subst hcs
      refine ⟨0, ?_⟩
      rw [Nat.ofDigitChars_nil, Nat.mul_zero, Nat.zero_add, padded, hc]
      rfl
    obtain ⟨zeros, hzeros⟩ := ih hcs hdigits
    rcases Nat.eq_zero_or_pos (Nat.ofDigitChars 10 cs 0) with hzero | hpos
    · refine ⟨zeros + 1, ?_⟩
      rw [hzero, Nat.mul_zero, Nat.zero_add, padded, hc]
      conv_lhs => rw [hzeros, hzero, padded, Nat.toDigits_zero]
      rw [List.replicate_succ']
    · refine ⟨zeros, ?_⟩
      conv_lhs => rw [hzeros, padded, ← hc]
      rw [padded, List.append_assoc, Nat.toDigits_append_toDigits (by decide) hpos hlt]

/-- **Digits are read as a number if they are its own, after some zeros,** and it is not too
large. -/
theorem digits?_eq_some_iff_padded :
    digits? cs = some n ↔ n ≤ largest ∧ ∃ zeros, cs = padded zeros n := by
  have hlargest : n ≤ largest ↔ n < UInt64.size := Nat.le_iff_lt_add_one
  rw [digits?_eq_some_iff, hlargest]
  constructor
  · rintro ⟨hne, hdigits, rfl, hfits⟩
    exact ⟨hfits, exists_padded hne hdigits⟩
  · rintro ⟨hfits, zeros, rfl⟩
    exact ⟨padded_ne_nil, fun _ => isDigit_of_mem_padded, ofDigitChars_padded, hfits⟩

/-- A number that fits is read back from its digits. -/
theorem digits?_toDigits (h : n ≤ largest) : digits? (Nat.toDigits 10 n) = some n :=
  digits?_eq_some_iff_padded.mpr ⟨h, 0, rfl⟩

end ExactCover.Text
