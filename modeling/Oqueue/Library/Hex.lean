import Mathlib

/-!
# Lowercase hexadecimal

Two ASCII digits for each byte. Only what was written reads back, and the
digits sort as the bytes do.
-/

namespace Hex

/-- The ASCII digit of a number below sixteen. -/
def digit (value : Nat) : UInt8 := UInt8.ofNat (if value < 10 then 48 + value else 87 + value)

def undigit (c : UInt8) : Option Nat :=
  if 48 ≤ c.toNat ∧ c.toNat ≤ 57 then some (c.toNat - 48)
  else if 97 ≤ c.toNat ∧ c.toNat ≤ 102 then some (c.toNat - 97 + 10)
  else none

def hex : List UInt8 → List UInt8
  | [] => []
  | byte :: bytes => digit (byte.toNat / 16) :: digit (byte.toNat % 16) :: hex bytes

def unhex : List UInt8 → Option (List UInt8)
  | [] => some []
  | high :: low :: rest => do
    let high ← undigit high
    let low ← undigit low
    let bytes ← unhex rest
    return UInt8.ofNat (high * 16 + low) :: bytes
  | [_] => none

theorem undigit_digit {value : Nat} (small : value < 16) : undigit (digit value) = some value := by
  revert value
  decide

theorem unhex_hex (bytes : List UInt8) : unhex (hex bytes) = some bytes := by
  induction bytes with
  | nil => rfl
  | cons byte bytes ih =>
    have small := byte.toNat_lt
    have high : undigit (digit (byte.toNat / 16)) = some (byte.toNat / 16) :=
      undigit_digit (by omega)
    have low : undigit (digit (byte.toNat % 16)) = some (byte.toNat % 16) :=
      undigit_digit (by omega)
    have whole : UInt8.ofNat (byte.toNat / 16 * 16 + byte.toNat % 16) = byte := by
      rw [Nat.div_add_mod', UInt8.ofNat_toNat]
    rw [hex, unhex, high, low, ih]
    simp only [Option.bind_eq_bind, Option.bind_some, whole]
    rfl

theorem hex_injective {a b : List UInt8} (same : hex a = hex b) : a = b := by
  have read := unhex_hex a
  rw [same, unhex_hex] at read
  exact (Option.some.inj read).symm

/-- A byte that is not a digit ends what was written before it. -/
theorem hex_append_inj {sep : UInt8} (apart : ∀ value, value < 16 → sep ≠ digit value)
    {a b x y : List UInt8} (same : hex a ++ sep :: x = hex b ++ sep :: y) : a = b ∧ x = y := by
  induction a generalizing b with
  | nil =>
    cases b with
    | nil => exact ⟨rfl, (List.cons.inj same).2⟩
    | cons byte b =>
      have small := byte.toNat_lt
      exact absurd (List.cons.inj same).1 (apart _ (by omega))
  | cons byte a ih =>
    have small := byte.toNat_lt
    cases b with
    | nil => exact absurd (List.cons.inj same).1.symm (apart _ (by omega))
    | cons byte' b =>
      obtain ⟨high, rest⟩ := List.cons.inj same
      obtain ⟨low, rest⟩ := List.cons.inj rest
      obtain ⟨rfl, rfl⟩ := ih rest
      have bytes : hex [byte] = hex [byte'] := by
        rw [hex, high, low]
        rfl
      exact ⟨congrArg (· ++ a) (hex_injective bytes), rfl⟩

theorem digit_lt {a b : Nat} (small : b < 16) (lt : a < b) : digit a < digit b := by
  have digits : ∀ b, b < 16 → ∀ a, a < b → digit a < digit b := by decide
  exact digits b small a lt

/-- The first digit that differs decides, as the first byte does. -/
theorem hex_lt_of_lt {a b : List UInt8} (lt : a < b) : hex a < hex b := by
  induction a generalizing b with
  | nil =>
    cases b with
    | nil => exact absurd lt (List.not_lt_nil [])
    | cons y bs => exact List.nil_lt_cons _ _
  | cons x as ih =>
    cases b with
    | nil => exact absurd lt (List.not_lt_nil _)
    | cons y bs =>
      have small := y.toNat_lt
      rw [hex, hex, List.cons_lt_cons_iff, List.cons_lt_cons_iff]
      rcases List.cons_lt_cons_iff.mp lt with less | ⟨rfl, less⟩
      · have less := UInt8.lt_iff_toNat_lt.mp less
        rcases Nat.lt_or_ge (x.toNat / 16) (y.toNat / 16) with high | high
        · exact .inl (digit_lt (by omega) high)
        · have same : x.toNat / 16 = y.toNat / 16 := by omega
          rw [same]
          exact .inr ⟨rfl, .inl (digit_lt (by omega) (by omega))⟩
      · exact .inr ⟨rfl, .inr ⟨rfl, ih less⟩⟩

theorem hex_lt_iff {a b : List UInt8} : hex a < hex b ↔ a < b := by
  refine ⟨?_, hex_lt_of_lt⟩
  intro lt
  by_contra not_lt
  rcases List.le_iff_lt_or_eq.mp (List.not_lt.mp not_lt) with less | rfl
  · exact List.lt_asymm lt (hex_lt_of_lt less)
  · exact List.lt_irrefl _ lt

end Hex
