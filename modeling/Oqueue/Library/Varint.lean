import Oqueue.Library.Bytes

/-!
# Base-128 varints

Groups of seven bits, least significant first; the high bit of a byte says that
another follows. A number is written in one way, and read back by its groups.
-/

namespace Varint

open Bytes

def continues (byte : UInt8) : Bool := decide (128 ≤ byte.toNat)

/-- What the groups come to. -/
def value : List UInt8 → Nat
  | [] => 0
  | byte :: rest => byte.toNat % 128 + 128 * value rest

def encode (v : Nat) : List UInt8 :=
  if v < 128 then [.ofNat v] else .ofNat (v % 128 + 128) :: encode (v / 128)
termination_by v
decreasing_by omega

theorem encode_of_lt {v : Nat} (small : v < 128) : encode v = [.ofNat v] := by
  rw [encode, if_pos small]

theorem encode_of_le {v : Nat} (large : 128 ≤ v) :
    encode v = .ofNat (v % 128 + 128) :: encode (v / 128) := by
  rw [encode, if_neg (Nat.not_lt.mpr large)]

theorem value_encode (v : Nat) : value (encode v) = v := by
  induction v using encode.induct with
  | case1 v small =>
    rw [encode_of_lt small]
    simp only [value, UInt8.toNat_ofNat']
    omega
  | case2 v large ih =>
    rw [encode_of_le (Nat.not_lt.mp large), value, ih, UInt8.toNat_ofNat']
    omega

theorem encode_stops (v : Nat) : ∃ more last, encode v = more ++ [last] ∧
    (∀ byte ∈ more, continues byte = true) ∧ continues last = false := by
  induction v using encode.induct with
  | case1 v small =>
    refine ⟨[], .ofNat v, encode_of_lt small, (fun _ member => by cases member), ?_⟩
    unfold continues
    rw [UInt8.toNat_ofNat', decide_eq_false_iff_not]
    omega
  | case2 v large ih =>
    obtain ⟨more, last, whole, goes, stops⟩ := ih
    refine ⟨.ofNat (v % 128 + 128) :: more, last, ?_, ?_, stops⟩
    · rw [encode_of_le (Nat.not_lt.mp large), whole, List.cons_append]
    · intro byte member
      rcases List.mem_cons.mp member with rfl | member
      · unfold continues
        rw [UInt8.toNat_ofNat', decide_eq_true_iff]
        omega
      · exact goes byte member

theorem stops_or_continues (bytes : List UInt8) : (∀ byte ∈ bytes, continues byte = true) ∨
    ∃ more last after, bytes = more ++ last :: after ∧
      (∀ byte ∈ more, continues byte = true) ∧ continues last = false := by
  induction bytes with
  | nil => exact .inl fun _ member => by cases member
  | cons byte rest ih =>
    cases goes : continues byte with
    | false => exact .inr ⟨[], byte, rest, rfl, (fun _ member => by cases member), goes⟩
    | true =>
      rcases ih with all | ⟨more, last, after, rfl, goes', stops⟩
      · exact .inl (List.forall_mem_cons.mpr ⟨goes, all⟩)
      · exact .inr ⟨byte :: more, last, after, rfl, List.forall_mem_cons.mpr ⟨goes, goes'⟩, stops⟩

theorem length_encode_le {count v : Nat} (small : v < 128 ^ (count + 1)) :
    (encode v).length ≤ count + 1 := by
  induction count generalizing v with
  | zero =>
    rw [encode_of_lt (by omega)]
    exact Nat.le_refl _
  | succ count ih =>
    rcases Nat.lt_or_ge v 128 with less | more
    · rw [encode_of_lt less]
      exact Nat.le_add_left ..
    · have rest : v / 128 < 128 ^ (count + 1) := by
        rw [Nat.div_lt_iff_lt_mul (by decide), ← Nat.pow_succ]
        exact small
      rw [encode_of_le more, List.length_cons]
      exact Nat.succ_le_succ (ih rest)

theorem testBit_fromLeBytes (bytes : List UInt8) (j : Nat) :
    (fromLeBytes bytes).testBit j = (bytes.getD (j / 8) 0).toNat.testBit (j % 8) := by
  induction bytes generalizing j with
  | nil => exact (Nat.zero_testBit j).trans (Nat.zero_testBit (j % 8)).symm
  | cons byte rest ih =>
    have shape : fromLeBytes (byte :: rest) = 2 ^ 8 * fromLeBytes rest + byte.toNat :=
      congrArg (· + byte.toNat) (Nat.mul_comm _ _)
    rw [shape, Nat.testBit_two_pow_mul_add _ byte.toNat_lt]
    split
    · rename_i first
      rw [Nat.div_eq_of_lt first, Nat.mod_eq_of_lt first, List.getD_cons_zero]
    · rename_i later
      obtain ⟨k, rfl⟩ : ∃ k, j = k + 8 := ⟨j - 8, by omega⟩
      rw [Nat.add_sub_cancel, ih, Nat.add_div_right _ (by decide), Nat.add_mod_right,
        List.getD_cons_succ]

theorem testBit_seven (byte : UInt8) : byte.toNat.testBit 7 = continues byte := by
  have small := byte.toNat_lt
  rw [Nat.testBit_eq_decide_div_mod_eq]
  unfold continues
  rw [decide_eq_decide]
  omega

theorem trailingZeros_eq {width v k : Nat} (inside : k < width) (set : v.testBit k = true)
    (below : ∀ j < k, v.testBit j = false) : trailingZeros width v = k := by
  induction width generalizing v k with
  | zero => exact absurd inside (Nat.not_lt_zero k)
  | succ width ih =>
    rw [trailingZeros]
    cases k with
    | zero =>
      rw [Nat.testBit_zero, decide_eq_true_iff] at set
      rw [if_pos set]
    | succ k =>
      have clear := below 0 (Nat.succ_pos k)
      rw [Nat.testBit_zero, decide_eq_false_iff_not] at clear
      rw [if_neg clear, ih (Nat.lt_of_succ_lt_succ inside)]
      · rw [← Nat.testBit_succ]
        exact set
      · intro j less
        rw [← Nat.testBit_succ]
        exact below (j + 1) (Nat.succ_lt_succ less)

end Varint
