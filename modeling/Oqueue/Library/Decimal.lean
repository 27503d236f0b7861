import Mathlib

/-!
# Numbers in names

A number written in so many decimal digits, the leading ones zero, and read back.
-/

namespace Decimal

def digit (value : Nat) : Char := Char.ofNat (48 + value % 10)

/-- The last so many digits of a number. -/
def padded : Nat → Nat → List Char
  | 0, _ => []
  | width + 1, value => padded width (value / 10) ++ [digit value]

def number (digits : List Char) : Nat :=
  digits.foldl (fun value char => value * 10 + (char.toNat - 48)) 0

theorem digit_spec (value : Nat) :
    (digit value).toNat = 48 + value % 10 ∧ (digit value).isDigit = true := by
  have small : value % 10 < 10 := Nat.mod_lt _ (by decide)
  unfold digit
  interval_cases value % 10 <;> exact ⟨rfl, rfl⟩

@[simp] theorem length_padded (width value : Nat) : (padded width value).length = width := by
  induction width generalizing value with
  | zero => rfl
  | succ width ih => simp [padded, ih]

theorem number_padded (width value : Nat) : number (padded width value) = value % 10 ^ width := by
  induction width generalizing value with
  | zero => simp [padded, number, Nat.mod_one]
  | succ width ih =>
    have last : number (padded width (value / 10) ++ [digit value]) =
        number (padded width (value / 10)) * 10 + ((digit value).toNat - 48) := by
      simp [number]
    rw [padded, last, ih, (digit_spec value).1, Nat.pow_succ', Nat.mod_mul]
    omega

end Decimal
