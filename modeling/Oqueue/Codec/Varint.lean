import Oqueue.Codec.Wire
import Oqueue.Library.Halting
import Oqueue.Library.Varint

/-!
# Varints, read in one step and byte by byte

A word's first clear high bit is where its first varint ends, so looking for it
eight bytes at a time takes the bytes the loop would take. Here a read that fails
leaves the cursor where it stopped.
-/

namespace Oqueue.Codec

open Bytes Reader Varint

/-- The loop of both writers: seven bits at a time, until nothing is left. -/
def putGroups (v : Nat) : List UInt8 :=
  let byte := v &&& 0x7F
  let rest := v >>> 7
  if rest = 0 then [.ofNat byte] else .ofNat (byte ||| 0x80) :: putGroups rest
termination_by v
decreasing_by
  have _shifted : rest = v / 2 ^ 7 := Nat.shiftRight_eq_div_pow v 7
  change rest < v
  omega

def putUnsignedVarint (v : Nat) : List UInt8 := putGroups v

def putUnsignedVarlong (v : Nat) : List UInt8 := putGroups v

/-- A signed value moved up by one bit, in an exclusive or with its sign spread over the word. -/
def zigzag (width : Nat) (v : Int) : Nat :=
  castUnsigned width (2 * v) ^^^ castUnsigned width (v >>> (width - 1))

def putVarint (v : Int) : List UInt8 := putUnsignedVarint (zigzag 32 v)

def putVarlong (v : Int) : List UInt8 := putUnsignedVarlong (zigzag 64 v)

abbrev Halting (α : Type) := Reader.Halting DecodeError α

namespace Halting

def take (n : Nat) : Halting (List UInt8) := Reader.Halting.take truncated n

/-- The rounds of a byte loop for values of so many bits. -/
def slow (width maxBytes at_ : Nat) : Nat → Nat → Nat → Halting Nat
  | 0, _, _ => throw (.varintTooLong maxBytes at_)
  | rounds + 1, index, value => do
    let byte := (← take 1).headD 0
    let value := accumulate width value index byte
    if byte.toNat &&& 0x80 = 0 then return value
    else slow width maxBytes at_ rounds (index + 1) value

def readUnsignedVarintSlow (at_ : Nat) : Halting Nat :=
  slow 32 maxVarintBytes at_ maxVarintBytes 0 0

def readUnsignedVarlongSlow (at_ : Nat) : Halting Nat :=
  slow 64 maxVarlongBytes at_ maxVarlongBytes 0 0

/-- The bytes of a word's first varint. -/
def scanned (width len : Nat) : Halting Nat := do
  let bytes ← take len
  return bytes.zipIdx.foldl (fun value item => accumulate width value item.2 item.1) 0

def readUnsignedVarint : Halting Nat := do
  let cur ← get
  match peekWord cur with
  | some word =>
    let len := swarLen word
    if maxVarintBytes < len then throw (.varintTooLong maxVarintBytes cur.pos)
    else scanned 32 len
  | none => readUnsignedVarintSlow cur.pos

def readUnsignedVarlong : Halting Nat := do
  let cur ← get
  match peekWord cur with
  | some word =>
    let len := swarLen word
    if len ≤ 8 then scanned 64 len else readUnsignedVarlongSlow cur.pos
  | none => readUnsignedVarlongSlow cur.pos

def zagzig (raw : Nat) : Int := if raw % 2 = 0 then (raw / 2 : Nat) else -(raw / 2 : Nat) - 1

def readVarint : Halting Int := do return zagzig (← readUnsignedVarint)

def readVarlong : Halting Int := do return zagzig (← readUnsignedVarlong)

end Halting

theorem putGroups_eq (v : Nat) : putGroups v = encode v := by
  induction v using encode.induct with
  | case1 v small =>
    have byte : v &&& 127 = v := (Nat.and_two_pow_sub_one_eq_mod v 7).trans (Nat.mod_eq_of_lt small)
    have rest : v >>> 7 = 0 := (Nat.shiftRight_eq_div_pow v 7).trans (Nat.div_eq_of_lt small)
    rw [putGroups, encode_of_lt small, if_pos rest, byte]
  | case2 v large ih =>
    have byte : v &&& 127 = v % 128 := Nat.and_two_pow_sub_one_eq_mod v 7
    have rest : v >>> 7 = v / 128 := Nat.shiftRight_eq_div_pow v 7
    have marked : v % 128 ||| 128 = v % 128 + 128 := by
      have small : v % 128 < 2 ^ 7 := Nat.mod_lt _ (by decide)
      rw [Nat.or_comm, Nat.add_comm]
      exact (Nat.two_pow_add_eq_or_of_lt small 1).symm
    have some_ : v / 128 ≠ 0 := by omega
    rw [putGroups, encode_of_le (Nat.not_lt.mp large), byte, rest, if_neg some_, marked, ih]

theorem accumulate_eq {width index total : Nat} (byte : UInt8) (inside : index * 7 < width)
    (low : total < 2 ^ (index * 7)) : accumulate width (total % 2 ^ width) index byte =
      (total + 2 ^ (index * 7) * (byte.toNat % 128)) % 2 ^ width := by
  have fits : total < 2 ^ width := low.trans (Nat.pow_lt_pow_right (by decide) inside)
  have group : byte.toNat &&& 127 = byte.toNat % 128 := Nat.and_two_pow_sub_one_eq_mod _ 7
  have split : 2 ^ width = 2 ^ (index * 7) * 2 ^ (width - index * 7) := by
    rw [← Nat.pow_add, Nat.add_sub_cancel' inside.le]
  unfold accumulate
  rw [Nat.mod_eq_of_lt fits, Nat.mod_eq_of_lt inside, group, Nat.shiftLeft_eq, Nat.mul_comm, split,
    Nat.mul_mod_mul_left, Nat.or_comm, ← Nat.two_pow_add_eq_or_of_lt low, Nat.mod_mul,
    Nat.add_mul_mod_self_left, Nat.mod_eq_of_lt low, Nat.add_mul_div_left _ _ (by positivity),
    Nat.div_eq_of_lt low, Nat.zero_add, Nat.add_comm]

/-- Groups taken in from a place on are added at it, as far as the word reaches. -/
theorem accumulate_fold {width : Nat} (bytes : List UInt8) {index total : Nat}
    (fits : (index + bytes.length) * 7 < width + 7) (low : total < 2 ^ (index * 7)) :
    (bytes.zipIdx index).foldl (fun value item => accumulate width value item.2 item.1)
      (total % 2 ^ width) = (total + 2 ^ (index * 7) * value bytes) % 2 ^ width := by
  induction bytes generalizing index total with
  | nil =>
    rw [value, Nat.mul_zero, Nat.add_zero]
    rfl
  | cons byte rest ih =>
    rw [List.length_cons] at fits
    have place : 2 ^ ((index + 1) * 7) = 2 ^ (index * 7) * 128 := by
      rw [Nat.succ_mul, Nat.pow_add]
    have next : total + 2 ^ (index * 7) * (byte.toNat % 128) < 2 ^ ((index + 1) * 7) := by
      have group : 2 ^ (index * 7) * (byte.toNat % 128) ≤ 2 ^ (index * 7) * 127 :=
        Nat.mul_le_mul_left _ (by omega)
      omega
    rw [List.zipIdx_cons, List.foldl_cons, accumulate_eq byte (by omega) low,
      ih (by omega) next, value, place]
    congr 1
    ring

theorem testBit_stops {word : Nat} (small : word < 2 ^ 64) (j : Nat) :
    ((2 ^ 64 - 1 - word) &&& 0x8080808080808080).testBit j =
      (decide (j < 64) && decide (j % 8 = 7) && !word.testBit j) := by
  have complement : 2 ^ 64 - 1 - word = 2 ^ 64 - (word + 1) := by omega
  rw [complement, Nat.testBit_and, Nat.testBit_two_pow_sub_succ small]
  rcases Nat.lt_or_ge j 64 with inside | outside
  · have mask : ∀ i < 64, Nat.testBit 0x8080808080808080 i = decide (i % 8 = 7) := by decide
    rw [mask j inside, decide_eq_true inside, Bool.true_and, Bool.true_and, Bool.and_comm]
  · rw [decide_eq_false (Nat.not_lt.mpr outside), Bool.false_and, Bool.false_and, Bool.false_and,
      Bool.false_and]

theorem fromLeBytes_lt (bytes : List UInt8) : fromLeBytes bytes < 256 ^ bytes.length := by
  induction bytes with
  | nil => exact Nat.one_pos
  | cons byte rest ih =>
    have small := byte.toNat_lt
    change fromLeBytes rest * 256 + byte.toNat < 256 ^ (rest.length + 1)
    rw [Nat.pow_succ]
    omega

theorem swarLen_continues {bytes : List UInt8} (long : bytes.length = 8)
    (goes : ∀ byte ∈ bytes, continues byte = true) : swarLen (fromLeBytes bytes) = 9 := by
  have small : fromLeBytes bytes < 2 ^ 64 := by
    have := fromLeBytes_lt bytes
    rw [long] at this
    exact this
  have none_ : (2 ^ 64 - 1 - fromLeBytes bytes) &&& 0x8080808080808080 = 0 := by
    apply Nat.eq_of_testBit_eq
    intro j
    rw [testBit_stops small, Nat.zero_testBit]
    by_cases high : j < 64 ∧ j % 8 = 7
    · have inside : j / 8 < bytes.length := by omega
      rw [testBit_fromLeBytes, high.2, testBit_seven, List.getD_eq_getElem _ _ inside,
        goes _ (List.getElem_mem inside)]
      simp
    · by_cases inside : j < 64
      · have other : ¬ j % 8 = 7 := fun same => high ⟨inside, same⟩
        simp [other]
      · simp [inside]
  unfold swarLen
  rw [none_]
  rfl

theorem swarLen_stops {more after : List UInt8} {last : UInt8}
    (long : (more ++ last :: after).length = 8) (goes : ∀ byte ∈ more, continues byte = true)
    (stops : continues last = false) :
    swarLen (fromLeBytes (more ++ last :: after)) = more.length + 1 := by
  have small : fromLeBytes (more ++ last :: after) < 2 ^ 64 := by
    have := fromLeBytes_lt (more ++ last :: after)
    rw [long] at this
    exact this
  have few : more.length < 8 := by
    rw [List.length_append, List.length_cons] at long
    omega
  have first : ((2 ^ 64 - 1 - fromLeBytes (more ++ last :: after)) &&&
      0x8080808080808080).testBit (more.length * 8 + 7) = true := by
    have place : (more.length * 8 + 7) / 8 = more.length := by omega
    have high : (more.length * 8 + 7) % 8 = 7 := by omega
    rw [testBit_stops small, testBit_fromLeBytes, place, high, testBit_seven]
    rw [List.getD_append_right _ _ _ _ (Nat.le_refl _), Nat.sub_self, List.getD_cons_zero, stops]
    rw [decide_eq_true (by omega)]
    rfl
  have before : ∀ j < more.length * 8 + 7, ((2 ^ 64 - 1 - fromLeBytes (more ++ last :: after)) &&&
      0x8080808080808080).testBit j = false := by
    intro j less
    rw [testBit_stops small]
    by_cases high : j % 8 = 7
    · have inside : j / 8 < more.length := by omega
      rw [testBit_fromLeBytes, high, testBit_seven, List.getD_append _ _ _ _ inside,
        List.getD_eq_getElem _ _ inside, goes _ (List.getElem_mem inside)]
      simp
    · simp [high]
  have some_ : (2 ^ 64 - 1 - fromLeBytes (more ++ last :: after)) &&& 0x8080808080808080 ≠ 0 := by
    intro none_
    rw [none_, Nat.zero_testBit] at first
    cases first
  unfold swarLen
  dsimp only
  rw [if_neg some_, trailingZeros_eq (by omega) first before, Nat.shiftRight_eq_div_pow]
  omega

theorem high_eq_zero {byte : UInt8} : byte.toNat &&& 0x80 = 0 ↔ continues byte = false := by
  have high : byte.toNat &&& 2 ^ 7 = (byte.toNat.testBit 7).toNat * 2 ^ 7 := Nat.and_two_pow _ _
  rw [testBit_seven] at high
  change byte.toNat &&& 2 ^ 7 = 0 ↔ _
  rw [high]
  cases continues byte <;> decide

namespace Halting

open Reader.Halting

variable {width maxBytes at_ rounds index total : Nat} {cur : Cursor} {more after : List UInt8}
  {last : UInt8}

theorem take_one {byte : UInt8} (starts : cur.rest = byte :: after) :
    take 1 cur = (.ok [byte], cur.advance 1) ∧ (cur.advance 1).rest = after := by
  have starts : cur.rest = [byte] ++ after := starts
  exact take_eq_ok truncated starts

theorem slow_goes {byte : UInt8} (starts : cur.rest = byte :: after)
    (goes : continues byte = true) : slow width maxBytes at_ (rounds + 1) index total cur =
      slow width maxBytes at_ rounds (index + 1) (accumulate width total index byte)
        (cur.advance 1) := by
  have high : ¬ byte.toNat &&& 0x80 = 0 := by
    rw [high_eq_zero, goes]
    exact nofun
  rw [slow, bind_ok (take_one starts).1]
  exact congrFun (if_neg high) _

theorem slow_stops (starts : cur.rest = more ++ last :: after)
    (goes : ∀ byte ∈ more, continues byte = true) (stops : continues last = false)
    (few : more.length < rounds) : slow width maxBytes at_ rounds index total cur =
      (.ok (((more ++ [last]).zipIdx index).foldl
        (fun value item => accumulate width value item.2 item.1) total),
        cur.advance (more.length + 1)) := by
  induction more generalizing rounds index total cur with
  | nil =>
    obtain ⟨rounds, rfl⟩ : ∃ k, rounds = k + 1 := ⟨rounds - 1, by omega⟩
    unfold slow
    rw [bind_ok (take_one starts).1]
    exact congrFun (if_pos (high_eq_zero.mpr stops)) _
  | cons byte more ih =>
    rw [List.length_cons] at few
    obtain ⟨rounds, rfl⟩ : ∃ k, rounds = k + 1 := ⟨rounds - 1, by omega⟩
    have goes' := List.forall_mem_cons.mp goes
    rw [slow_goes starts goes'.1, ih (take_one starts).2 goes'.2 (by omega),
      Cursor.advance_advance, List.length_cons, Nat.add_comm 1]
    rfl

theorem slow_tooLong (starts : cur.rest = more ++ after)
    (goes : ∀ byte ∈ more, continues byte = true) (all : more.length = rounds) :
    slow width maxBytes at_ rounds index total cur =
      (.error (.varintTooLong maxBytes at_), cur.advance rounds) := by
  induction more generalizing rounds index total cur with
  | nil =>
    cases all
    rfl
  | cons byte more ih =>
    rw [List.length_cons] at all
    subst all
    have goes' := List.forall_mem_cons.mp goes
    rw [slow_goes starts goes'.1, ih (take_one starts).2 goes'.2 rfl, Cursor.advance_advance,
      Nat.add_comm 1]

theorem scanned_eq (starts : cur.rest = more ++ last :: after) :
    scanned width (more.length + 1) cur = (.ok ((more ++ [last]).zipIdx.foldl
      (fun value item => accumulate width value item.2 item.1) 0),
      cur.advance (more.length + 1)) := by
  have starts : cur.rest = (more ++ [last]) ++ after := by
    rw [starts, List.append_assoc, List.singleton_append]
  have taken := (take_eq_ok truncated starts).1
  rw [List.length_append, List.length_singleton] at taken
  exact bind_ok taken

theorem peekWord_cases (cur : Cursor) : peekWord cur = none ∨ ∃ first8 after,
    cur.rest = first8 ++ after ∧ first8.length = 8 ∧ peekWord cur = some (fromLeBytes first8) := by
  unfold peekWord
  dsimp only
  split
  · rename_i long
    exact .inr ⟨_, _, (List.take_append_drop 8 _).symm, long, rfl⟩
  · exact .inl rfl

theorem readUnsignedVarint_none (none_ : peekWord cur = none) :
    readUnsignedVarint cur = readUnsignedVarintSlow cur.pos cur := by
  change (match peekWord cur with | some _ => _ | none => _ : Halting Nat) cur = _
  rw [none_]

theorem readUnsignedVarint_some {word : Nat} (some_ : peekWord cur = some word) :
    readUnsignedVarint cur = (if maxVarintBytes < swarLen word then
      throw (.varintTooLong maxVarintBytes cur.pos) else scanned 32 (swarLen word) :
        Halting Nat) cur := by
  change (match peekWord cur with | some _ => _ | none => _ : Halting Nat) cur = _
  rw [some_]

theorem readUnsignedVarlong_none (none_ : peekWord cur = none) :
    readUnsignedVarlong cur = readUnsignedVarlongSlow cur.pos cur := by
  change (match peekWord cur with | some _ => _ | none => _ : Halting Nat) cur = _
  rw [none_]

theorem readUnsignedVarlong_some {word : Nat} (some_ : peekWord cur = some word) :
    readUnsignedVarlong cur = (if swarLen word ≤ 8 then scanned 64 (swarLen word)
      else readUnsignedVarlongSlow cur.pos : Halting Nat) cur := by
  change (match peekWord cur with | some _ => _ | none => _ : Halting Nat) cur = _
  rw [some_]

/-- Reading by the word is reading by the byte, but that it leaves the cursor where it was when
the first five bytes all continue. -/
theorem readUnsignedVarint_cases (cur : Cursor) :
    readUnsignedVarint cur = readUnsignedVarintSlow cur.pos cur ∨ (8 ≤ cur.remaining ∧
      readUnsignedVarint cur = (.error (.varintTooLong maxVarintBytes cur.pos), cur) ∧
      readUnsignedVarintSlow cur.pos cur =
        (.error (.varintTooLong maxVarintBytes cur.pos), cur.advance maxVarintBytes)) := by
  rcases peekWord_cases cur with short | ⟨first8, after, starts, long, word⟩
  · exact .inl (readUnsignedVarint_none short)
  · have enough : 8 ≤ cur.remaining := by
      rw [Cursor.remaining_eq, starts, List.length_append, long]
      exact Nat.le_add_right ..
    have tooLong : ∀ more after', first8 = more ++ after' → maxVarintBytes ≤ more.length →
        (∀ byte ∈ more, continues byte = true) → readUnsignedVarintSlow cur.pos cur =
          (.error (.varintTooLong maxVarintBytes cur.pos), cur.advance maxVarintBytes) := by
      intro more after' whole five goes
      have split : cur.rest = more.take maxVarintBytes ++
          (more.drop maxVarintBytes ++ (after' ++ after)) := by
        rw [starts, whole, ← List.append_assoc (more.take _), List.take_append_drop,
          List.append_assoc]
      exact slow_tooLong split (fun byte member => goes byte (List.mem_of_mem_take member))
        (List.length_take_of_le five)
    rw [readUnsignedVarint_some word]
    rcases stops_or_continues first8 with goes | ⟨more, last, after', whole, goes, stops⟩
    · right
      have five : maxVarintBytes ≤ first8.length := by
        rw [long]
        decide
      rw [swarLen_continues long goes]
      exact ⟨enough, rfl, tooLong first8 [] (List.append_nil _).symm five goes⟩
    · subst whole
      rw [swarLen_stops long goes stops]
      split
      · rename_i beyond
        exact .inr ⟨enough, rfl,
          tooLong more (last :: after') rfl (Nat.le_of_lt_succ beyond) goes⟩
      · rename_i fits
        left
        rw [List.append_assoc] at starts
        rw [scanned_eq starts]
        exact (slow_stops starts goes stops (Nat.not_lt.mp fits)).symm

theorem readUnsignedVarlong_eq (cur : Cursor) :
    readUnsignedVarlong cur = readUnsignedVarlongSlow cur.pos cur := by
  rcases peekWord_cases cur with short | ⟨first8, after, starts, long, word⟩
  · exact readUnsignedVarlong_none short
  · rw [readUnsignedVarlong_some word]
    rcases stops_or_continues first8 with goes | ⟨more, last, after', whole, goes, stops⟩
    · rw [swarLen_continues long goes]
      rfl
    · subst whole
      rw [swarLen_stops long goes stops]
      split
      · rename_i fits
        rw [List.append_assoc] at starts
        rw [scanned_eq starts]
        exact (slow_stops starts goes stops (fits.trans (by decide))).symm
      · rfl

/-- A number that the rounds have room for is read back from its place. -/
theorem slow_encode {v : Nat} (count : Nat) (starts : cur.rest = encode v ++ after)
    (small : v < 128 ^ (count + 1)) (fits : (count + 1) * 7 < width + 7) (narrow : v < 2 ^ width) :
    slow width maxBytes at_ (count + 1) 0 0 cur = (.ok v, cur.advance (encode v).length) := by
  obtain ⟨more, last, whole, goes, stops⟩ := encode_stops v
  have length : more.length + 1 ≤ count + 1 := by
    have := length_encode_le small
    rw [whole, List.length_append] at this
    exact this
  have folded : (encode v).zipIdx.foldl
      (fun value item => accumulate width value item.2 item.1) 0 = v := by
    have reach : (0 + (encode v).length) * 7 < width + 7 := by
      rw [whole, List.length_append, List.length_singleton]
      omega
    have from_ : (encode v).zipIdx.foldl
        (fun value item => accumulate width value item.2 item.1) (0 % 2 ^ width) =
          (0 + 2 ^ (0 * 7) * value (encode v)) % 2 ^ width :=
      accumulate_fold (encode v) reach (Nat.two_pow_pos _)
    rw [value_encode, Nat.zero_mod, Nat.zero_mul, Nat.pow_zero, Nat.one_mul, Nat.zero_add,
      Nat.mod_eq_of_lt narrow] at from_
    exact from_
  have split : cur.rest = more ++ last :: after := by
    rw [starts, whole, List.append_assoc, List.singleton_append]
  rw [slow_stops split goes stops (by omega), ← whole, folded]
  rw [whole, List.length_append, List.length_singleton]

theorem readUnsignedVarint_encode {v : Nat} (starts : cur.rest = encode v ++ after)
    (narrow : v < 2 ^ 32) :
    readUnsignedVarint cur = (.ok v, cur.advance (encode v).length) := by
  have read : readUnsignedVarintSlow cur.pos cur = (.ok v, cur.advance (encode v).length) :=
    slow_encode 4 starts (narrow.trans (by decide)) (by decide) narrow
  rcases readUnsignedVarint_cases cur with same | ⟨-, -, refused⟩
  · exact same.trans read
  · rw [read] at refused
    cases refused

theorem readUnsignedVarlong_encode {v : Nat} (starts : cur.rest = encode v ++ after)
    (narrow : v < 2 ^ 64) :
    readUnsignedVarlong cur = (.ok v, cur.advance (encode v).length) :=
  (readUnsignedVarlong_eq cur).trans
    (slow_encode 9 starts (narrow.trans (by decide)) (by decide) narrow)

end Halting

theorem xor_ones {width v : Nat} (small : v < 2 ^ width) :
    v ^^^ (2 ^ width - 1) = 2 ^ width - (v + 1) := by
  apply Nat.eq_of_testBit_eq
  intro j
  rw [Nat.testBit_xor, Nat.testBit_two_pow_sub_one, Nat.testBit_two_pow_sub_succ small]
  rcases Nat.lt_or_ge j width with inside | outside
  · rw [decide_eq_true inside, Bool.xor_true, Bool.true_and]
  · rw [decide_eq_false (Nat.not_lt.mpr outside), Bool.xor_false, Bool.false_and]
    exact Nat.testBit_lt_two_pow (small.trans_le (Nat.pow_le_pow_right (by decide) outside))

/-- Zigzag keeps a value within its width, and takes it back. -/
theorem zagzig_zigzag {half : Nat} {v : Int} (low : -2 ^ half ≤ v) (high : v < 2 ^ half) :
    zigzag (half + 1) v < 2 ^ (half + 1) ∧ Halting.zagzig (zigzag (half + 1) v) = v := by
  have double : (2 : Int) ^ (half + 1) = 2 * 2 ^ half := by ring
  have bound : ((2 ^ (half + 1) : Nat) : Int) = 2 ^ (half + 1) := by push_cast; rfl
  unfold zigzag castUnsigned Halting.zagzig
  rw [Nat.add_sub_cancel, Int.shiftRight_eq_div_pow]
  push_cast
  rcases Int.lt_or_le v 0 with negative | positive
  · have sign : v / 2 ^ half = -1 := by
      rw [Int.ediv_eq_iff_of_pos (by positivity)]
      omega
    have ones : ((-1 : Int) % 2 ^ (half + 1)).toNat = 2 ^ (half + 1) - 1 := by
      rw [← Int.add_emod_right, Int.emod_eq_of_lt (by omega) (by omega)]
      omega
    have doubled : 2 * v % 2 ^ (half + 1) = 2 * v + 2 ^ (half + 1) := by
      rw [← Int.add_emod_right, Int.emod_eq_of_lt (by omega) (by omega)]
    rw [sign, ones, doubled, xor_ones (by omega)]
    constructor
    · omega
    · rw [if_neg (by omega)]
      omega
  · have sign : v / 2 ^ half = 0 := Int.ediv_eq_zero_of_lt positive high
    have doubled : 2 * v % 2 ^ (half + 1) = 2 * v := Int.emod_eq_of_lt (by omega) (by omega)
    rw [sign, doubled, Int.zero_emod, Int.toNat_zero, Nat.xor_zero]
    constructor
    · omega
    · rw [if_pos (by omega)]
      omega

namespace Halting

open Reader.Halting

theorem toRead_slowVarint (at_ rounds index value : Nat) :
    toRead (slow 32 maxVarintBytes at_ rounds index value) =
      Codec.readUnsignedVarintSlow at_ rounds index value := by
  induction rounds generalizing index value with
  | zero => rfl
  | succ rounds ih =>
    unfold slow Codec.readUnsignedVarintSlow
    rw [toRead_bind, take, toRead_take]
    refine congrArg (Codec.take 1 >>= ·) (funext fun bytes => ?_)
    rw [toRead_ite, ih]
    rfl

theorem toRead_slowVarlong (at_ rounds index value : Nat) :
    toRead (slow 64 maxVarlongBytes at_ rounds index value) =
      Codec.readUnsignedVarlongSlow at_ rounds index value := by
  induction rounds generalizing index value with
  | zero => rfl
  | succ rounds ih =>
    unfold slow Codec.readUnsignedVarlongSlow
    rw [toRead_bind, take, toRead_take]
    refine congrArg (Codec.take 1 >>= ·) (funext fun bytes => ?_)
    rw [toRead_ite, ih]
    rfl

theorem toRead_scanned (width len : Nat) : toRead (scanned width len) = (do
    let bytes ← Codec.take len
    return bytes.zipIdx.foldl (fun value item => accumulate width value item.2 item.1) 0) := by
  unfold scanned
  rw [toRead_bind, take, toRead_take]
  rfl

theorem toRead_readUnsignedVarint : toRead readUnsignedVarint = Codec.readUnsignedVarint := by
  unfold readUnsignedVarint Codec.readUnsignedVarint
  rw [toRead_get_bind]
  refine congrArg (MonadState.get >>= ·) (funext fun cur => ?_)
  cases peekWord cur with
  | none => exact toRead_slowVarint ..
  | some word =>
    dsimp only
    rw [toRead_ite, toRead_scanned]
    split <;> rfl

theorem toRead_readUnsignedVarlong : toRead readUnsignedVarlong = Codec.readUnsignedVarlong := by
  unfold readUnsignedVarlong Codec.readUnsignedVarlong
  rw [toRead_get_bind]
  refine congrArg (MonadState.get >>= ·) (funext fun cur => ?_)
  cases peekWord cur with
  | none => exact toRead_slowVarlong ..
  | some word =>
    dsimp only
    rw [toRead_ite, toRead_scanned, readUnsignedVarlongSlow, toRead_slowVarlong]

theorem toRead_readVarint : toRead readVarint = Codec.readVarint := by
  unfold readVarint Codec.readVarint
  rw [toRead_bind, toRead_readUnsignedVarint]
  rfl

theorem toRead_readVarlong : toRead readVarlong = Codec.readVarlong := by
  unfold readVarlong Codec.readVarlong
  rw [toRead_bind, toRead_readUnsignedVarlong]
  rfl

end Halting

abbrev placed (before put rest : List UInt8) : Cursor := ⟨before ++ (put ++ rest), before.length⟩

abbrev passed (before put rest : List UInt8) : Cursor :=
  ⟨before ++ (put ++ rest), before.length + put.length⟩

theorem rest_placed (before put rest : List UInt8) :
    (placed before put rest).rest = put ++ rest :=
  List.drop_left ..

namespace Halting

open Reader.Halting

/-- Reading by the word refuses exactly what the byte loop refuses, and otherwise returns its
value at its position; a varint refused by the word is left where it began, and every other
read leaves the cursor where the loop does. What is put is read back and no more. -/
theorem varints_read_alike :
    (∀ cur, readUnsignedVarint cur = readUnsignedVarintSlow cur.pos cur ∨
      (8 ≤ cur.remaining ∧
        readUnsignedVarint cur = (.error (.varintTooLong maxVarintBytes cur.pos), cur) ∧
        readUnsignedVarintSlow cur.pos cur =
          (.error (.varintTooLong maxVarintBytes cur.pos), cur.advance maxVarintBytes))) ∧
    (∀ cur, readUnsignedVarlong cur = readUnsignedVarlongSlow cur.pos cur) ∧
    (∀ (v : UInt32) before rest,
      readUnsignedVarint (placed before (putUnsignedVarint v.toNat) rest) =
        (.ok v.toNat, passed before (putUnsignedVarint v.toNat) rest)) ∧
    (∀ (v : UInt64) before rest,
      readUnsignedVarlong (placed before (putUnsignedVarlong v.toNat) rest) =
        (.ok v.toNat, passed before (putUnsignedVarlong v.toNat) rest)) ∧
    (∀ (v : Int32) before rest, readVarint (placed before (putVarint v.toInt) rest) =
      (.ok v.toInt, passed before (putVarint v.toInt) rest)) ∧
    (∀ (v : Int64) before rest, readVarlong (placed before (putVarlong v.toInt) rest) =
      (.ok v.toInt, passed before (putVarlong v.toInt) rest)) := by
  refine ⟨readUnsignedVarint_cases, readUnsignedVarlong_eq, ?_, ?_, ?_, ?_⟩
  · intro v before rest
    unfold putUnsignedVarint
    rw [putGroups_eq]
    exact readUnsignedVarint_encode (rest_placed ..) v.toNat_lt
  · intro v before rest
    unfold putUnsignedVarlong
    rw [putGroups_eq]
    exact readUnsignedVarlong_encode (rest_placed ..) v.toNat_lt
  · intro v before rest
    obtain ⟨narrow, back⟩ := zagzig_zigzag v.le_toInt v.toInt_lt
    unfold putVarint putUnsignedVarint readVarint
    rw [putGroups_eq, bind_ok (readUnsignedVarint_encode (rest_placed ..) narrow)]
    exact Prod.ext (congrArg Except.ok back) rfl
  · intro v before rest
    obtain ⟨narrow, back⟩ := zagzig_zigzag v.le_toInt v.toInt_lt
    unfold putVarlong putUnsignedVarlong readVarlong
    rw [putGroups_eq, bind_ok (readUnsignedVarlong_encode (rest_placed ..) narrow)]
    exact Prod.ext (congrArg Except.ok back) rfl

/-- Eight bytes that all continue leave the cursor at the first of them when the word is looked
at, and after the fifth when the bytes are. -/
theorem refused_varint_halts_apart :
    ¬ ∀ cur, readUnsignedVarint cur = readUnsignedVarintSlow cur.pos cur := by
  intro same
  have apart : (readUnsignedVarint { buf := List.replicate 8 0x80 }).2.pos =
      (readUnsignedVarintSlow 0 { buf := List.replicate 8 0x80 }).2.pos :=
    congrArg (fun out => out.2.pos) (same _)
  revert apart
  decide +kernel

end Halting

end Oqueue.Codec
