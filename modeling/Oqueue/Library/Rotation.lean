import Mathlib

/-!
# Turning a word

A rotation permutes a word's bits, so it respects the exclusive or, two turns
make one, and a whole turn is none.
-/

namespace BitVec

variable {w : Nat}

theorem xor_eq_iff {x y z : BitVec w} : x ^^^ y = z ↔ x = z ^^^ y := by
  constructor
  · intro same
    rw [← same, xor_assoc, xor_self, xor_zero]
  · intro same
    rw [same, xor_assoc, xor_self, xor_zero]

theorem xor_and (x y mask : BitVec w) : (x ^^^ y) &&& mask = (x &&& mask) ^^^ (y &&& mask) := by
  ext i h
  simp only [getElem_and, getElem_xor]
  exact Bool.and_xor_distrib_right _ _ _

theorem and_eq_and_iff {x y mask : BitVec w} :
    x &&& mask = y &&& mask ↔ (x ^^^ y) &&& mask = 0#w := by
  rw [xor_and, xor_eq_iff, zero_xor]

theorem rotateLeft_xor (x y : BitVec w) (r : Nat) :
    (x ^^^ y).rotateLeft r = x.rotateLeft r ^^^ y.rotateLeft r := by
  ext i h
  rw [getElem_xor, getElem_rotateLeft, getElem_rotateLeft, getElem_rotateLeft]
  split <;> exact getElem_xor _

theorem rotateLeft_width (x : BitVec w) : x.rotateLeft w = x := by
  ext i h
  rw [getElem_rotateLeft, dif_neg (by rw [Nat.mod_self]; exact Nat.not_lt_zero i)]
  simp only [Nat.mod_self, Nat.sub_zero]

theorem rotateLeft_rotateLeft (x : BitVec w) (r s : Nat) :
    (x.rotateLeft r).rotateLeft s = x.rotateLeft (r + s) := by
  rcases w.eq_zero_or_pos with rfl | pos
  · exact of_length_zero.trans of_length_zero.symm
  · have first : r % w < w := Nat.mod_lt _ pos
    have second : s % w < w := Nat.mod_lt _ pos
    have both : (r + s) % w = if w ≤ r % w + s % w then r % w + s % w - w
        else r % w + s % w := Nat.add_mod_eq_ite
    ext i h
    simp only [getElem_rotateLeft, both]
    split_ifs <;> (congr 1; omega)

theorem rotateLeft_inj {x y : BitVec w} {r : Nat} (small : r ≤ w) :
    x.rotateLeft r = y.rotateLeft r ↔ x = y := by
  constructor
  · intro same
    have turned := congrArg (fun z => z.rotateLeft (w - r)) same
    rw [rotateLeft_rotateLeft, rotateLeft_rotateLeft, Nat.add_sub_cancel' small] at turned
    rw [← rotateLeft_width x, turned, rotateLeft_width]
  · exact fun same => same ▸ rfl

end BitVec
