import Mathlib.Algebra.Order.Ring.Int

/-!
# `int` arithmetic

An `int` has 32 bits, and a number that is none comes about in two ways. A size is
converted to an `int`: that takes it modulo `2 ^ 32` (`wrap`), so that a vector of
`2 ^ 31` elements has a negative size. Or a sum or a product of `int`s is too great:
that is undefined (`int`), unless the arithmetic is meant modulo `2 ^ 32`, and then
it is `wrap` again.

A loop whose index is an `int` meets the second where it counts up to a size that
is not an `int`, and the first where the size, or the last index, is stored in an
`int` before.
-/

namespace IntArith

/-- A number as 32 bits represent it. -/
def wrap (x : ℤ) : ℤ := Int.bmod x (2 ^ 32)

/-- The `int`s. -/
def IsInt (x : ℤ) : Prop := -2 ^ 31 ≤ x ∧ x < 2 ^ 31

instance (x : ℤ) : Decidable (IsInt x) := inferInstanceAs (Decidable (_ ∧ _))

/-- A number that is not negative, as an `int`. -/
def int (n : ℕ) : Option ℕ := if n < 2 ^ 31 then some n else none

/-! ## Conversions

A size is at most `2 ^ 64 - 1`, and converted to an `int` it loses all but its
last 32 bits. The sizes of interest are those up to `2 ^ 32`, since from there on
the conversion begins again with small numbers. Sums and differences may be
wrapped before or after, or both. -/

theorem wrap_of_isInt {x : ℤ} (h : IsInt x) : wrap x = x := by
  obtain ⟨hlo, hhi⟩ := h
  exact Int.bmod_eq_of_le (by omega) (by omega)

theorem wrap_zero : wrap 0 = 0 := wrap_of_isInt (by decide)

theorem wrap_sub (x : ℤ) : wrap (x - 2 ^ 32) = wrap x := Int.sub_bmod_right x (2 ^ 32)

theorem wrap_wrap_add (x y : ℤ) : wrap (wrap x + y) = wrap (x + y) := Int.bmod_add_bmod

theorem wrap_add_wrap (x y : ℤ) : wrap (x + wrap y) = wrap (x + y) := Int.add_bmod_bmod

theorem isInt_wrap (x : ℤ) : IsInt (wrap x) := by
  have hlo := Int.le_bmod (x := x) (show 0 < 2 ^ 32 by decide)
  have hhi := Int.bmod_lt (x := x) (show 0 < 2 ^ 32 by decide)
  unfold IsInt wrap
  omega

variable {n : ℕ}

theorem wrap_natCast (h : n < 2 ^ 31) : wrap n = n := wrap_of_isInt ⟨by omega, by omega⟩

theorem toNat?_wrap (h : n < 2 ^ 31) : (wrap n).toNat? = some n := by
  rw [wrap_natCast h]
  rfl

theorem wrap_succ_sub_one (n : ℕ) : wrap (wrap (n + 1 : ℕ) - 1) = wrap n := by
  rw [Int.sub_eq_add_neg, wrap_wrap_add]
  exact congrArg wrap (by omega)

theorem wrap_pred (h : 1 ≤ n) (hn : n ≤ 2 ^ 31) : wrap (n - 1 : ℕ) = (n : ℤ) - 1 := by
  rw [wrap_natCast (by omega)]
  omega

theorem wrap_natCast_of_le (h : 2 ^ 31 ≤ n) (hn : n < 2 ^ 32) : wrap n = n - 2 ^ 32 := by
  rw [← wrap_sub]
  exact wrap_of_isInt ⟨by omega, by omega⟩

/-! ## Sums and products

Where a sum or a product is meant to be exact, one that is not an `int` is
undefined, and the computation ends there without a result. -/

theorem int_of_lt (h : n < 2 ^ 31) : int n = some n := if_pos h

theorem int_of_le (h : 2 ^ 31 ≤ n) : int n = none := if_neg (Nat.not_lt.mpr h)

end IntArith
