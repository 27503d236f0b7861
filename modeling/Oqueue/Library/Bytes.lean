import Mathlib

/-!
# Bytes and fixed-width integers

Fields of a byte format as naturals and integers. A width is a number of bits
and shows in the reduction, so a value read as `width` bits is always in range.
-/

namespace Bytes

def fromBeBytes (bytes : List UInt8) : Nat :=
  bytes.foldl (fun value byte => value * 256 + byte.toNat) 0

def fromLeBytes (bytes : List UInt8) : Nat :=
  bytes.foldr (fun byte value => value * 256 + byte.toNat) 0

def toBeBytes : Nat → Nat → List UInt8
  | 0, _ => []
  | count + 1, value => toBeBytes count (value / 256) ++ [UInt8.ofNat value]

@[simp] theorem length_toBeBytes (count value : Nat) : (toBeBytes count value).length = count := by
  induction count generalizing value with
  | zero => rfl
  | succ count ih => simp [toBeBytes, ih]

/-- The two's-complement reading of the low `width` bits. -/
def castSigned (width value : Nat) : Int :=
  let low := value % 2 ^ width
  if low < 2 ^ (width - 1) then low else low - 2 ^ width

def castUnsigned (width : Nat) (value : Int) : Nat := (value % 2 ^ width).toNat

theorem castSigned_lt (width value : Nat) : castSigned width value < 2 ^ (width - 1) := by
  unfold castSigned
  have below : value % 2 ^ width < 2 ^ width := Nat.mod_lt _ (Nat.two_pow_pos width)
  have positive : (0 : Int) < 2 ^ (width - 1) := Int.pow_pos (by decide)
  dsimp only
  split
  · rename_i small
    exact_mod_cast small
  · have : ((value % 2 ^ width : Nat) : Int) < 2 ^ width := by exact_mod_cast below
    omega

theorem fromBeBytes_append (bytes : List UInt8) (byte : UInt8) :
    fromBeBytes (bytes ++ [byte]) = fromBeBytes bytes * 256 + byte.toNat := by
  simp [fromBeBytes]

theorem fromBeBytes_toBeBytes (count value : Nat) :
    fromBeBytes (toBeBytes count value) = value % 256 ^ count := by
  induction count generalizing value with
  | zero => simp [toBeBytes, fromBeBytes, Nat.mod_one]
  | succ count ih =>
    have low : (UInt8.ofNat value).toNat = value % 256 := by simp
    rw [toBeBytes, fromBeBytes_append, ih, low, Nat.pow_succ', Nat.mod_mul]
    omega

/-- Storing a signed value and reading it back changes nothing in range. -/
theorem castSigned_castUnsigned {width : Nat} (positive : 0 < width) {value : Int}
    (low : -(2 ^ (width - 1)) ≤ value) (high : value < 2 ^ (width - 1)) :
    castSigned width (castUnsigned width value) = value := by
  obtain ⟨half, rfl⟩ : ∃ half, width = half + 1 := ⟨width - 1, by omega⟩
  have double : (2 : Int) ^ (half + 1) = 2 * 2 ^ half := by ring
  have reduced : ((castUnsigned (half + 1) value % 2 ^ (half + 1) : Nat) : Int) =
      value % 2 ^ (half + 1) := by
    have nonneg : 0 ≤ value % 2 ^ (half + 1) := Int.emod_nonneg _ (by positivity)
    rw [castUnsigned]
    push_cast
    rw [Int.toNat_of_nonneg nonneg, Int.emod_emod_of_dvd _ (dvd_refl _)]
  simp only [Nat.add_sub_cancel] at low high
  simp only [castSigned, Nat.add_sub_cancel]
  have below : castUnsigned (half + 1) value % 2 ^ (half + 1) < 2 ^ half ↔
      value % 2 ^ (half + 1) < 2 ^ half := by
    rw [← reduced]
    exact_mod_cast Iff.rfl
  by_cases sign : 0 ≤ value
  · have same : value % 2 ^ (half + 1) = value := Int.emod_eq_of_lt sign (by omega)
    rw [same] at reduced below
    rw [if_pos (below.mpr high), reduced]
  · have same : value % 2 ^ (half + 1) = value + 2 ^ (half + 1) := by
      rw [← Int.add_emod_right, Int.emod_eq_of_lt (by omega) (by omega)]
    rw [same] at reduced below
    rw [if_neg (fun small => by have := below.mp small; omega), reduced]
    omega

/-- The nearest value a signed integer of that width holds. -/
def saturate (width : Nat) (value : Int) : Int :=
  max (-(2 ^ (width - 1))) (min (2 ^ (width - 1) - 1) value)

/-- How many low bits are clear before the first set one, up to a width. -/
def trailingZeros : Nat → Nat → Nat
  | 0, _ => 0
  | width + 1, value => if value % 2 = 1 then 0 else trailingZeros width (value / 2) + 1

end Bytes
