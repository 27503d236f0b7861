import Oqueue.Library.Format

/-!
# A body, and a trailer that counts it

Bytes that end in how many items there are, the form's version, the body's length and a
marker. They are read from the end: the marker first, then the trailer, then the body
that it leaves room for, whole.
-/

namespace Trailer

open Bytes Reader Format

variable {ε α : Type}

def trailerImage (version count bodyLen : Nat) (magic : List UInt8) : List UInt8 :=
  toBeBytes 4 count ++ (toBeBytes 1 version ++ (toBeBytes 4 bodyLen ++ magic))

theorem length_trailerImage (version count bodyLen : Nat) {magic : List UInt8}
    (four : magic.length = 4) : (trailerImage version count bodyLen magic).length = 13 := by
  simp [trailerImage, four]

/-- The count and the body's length, around a version that must be the one expected. -/
def readTrailer (refuse : Nat → Cursor → ε) (expected : Nat) (unknown : Nat → ε) :
    Read ε (Nat × Nat) := do
  let count ← unsigned refuse 4
  let version ← unsigned refuse 1
  if version ≠ expected then throw (unknown version)
  else return (count, ← unsigned refuse 4)

/-- Reads such bytes from their end. -/
def parse (short unmarked none : ε) (unlike : Nat → ε) (trailer : Read ε (Nat × Nat))
    (magic : List UInt8) (body : Nat → Nat → Read ε α) (bytes : List UInt8) : Except ε α :=
  if bytes.length < 13 then .error short
  else
    let trailerAt := bytes.length - 13
    if bytes.drop (bytes.length - 4) ≠ magic then .error unmarked
    else do
      let ((count, bodyLen), _) ← trailer.run { buf := bytes.drop trailerAt }
      if count = 0 then .error none
      else if bodyLen ≠ trailerAt then .error (unlike trailerAt)
      else
        let (value, _) ← (body count trailerAt).run { buf := bytes.take trailerAt }
        return value

abbrev Trails (version : Nat) (trailer : Nat × Nat) (bytes : List UInt8) : Prop :=
  (trailer.1 < 2 ^ 32 ∧ trailer.2 < 2 ^ 32) ∧
    bytes = toBeBytes 4 trailer.1 ++ (toBeBytes 1 version ++ toBeBytes 4 trailer.2)

theorem reads_trailer (refuse : Nat → Cursor → ε) {expected : Nat} (small : expected < 256)
    (unknown : Nat → ε) : Reads (readTrailer refuse expected unknown) (Trails expected) := by
  refine ((Reads.unsigned refuse 4).bind fun count => (Reads.unsigned refuse 1).bind
    (G := fun version trailer bytes => version = expected ∧ trailer.1 = count ∧ trailer.2 < 2 ^ 32 ∧
      bytes = toBeBytes 4 trailer.2) fun version => ?_).congr fun trailer bytes => ?_
  · by_cases known : version = expected
    · rw [if_neg (not_not.mpr known)]
      refine ((Reads.unsigned refuse 4).bind fun bodyLen =>
        Reads.pure (count, bodyLen)).congr fun trailer bytes => ?_
      obtain ⟨first, second⟩ := trailer
      simp [known, and_assoc, and_left_comm]
    · rw [if_pos known]
      exact (Reads.throw _).congr fun trailer bytes => iff_of_false id fun h => known h.1
  · obtain ⟨count, bodyLen⟩ := trailer
    constructor
    · rintro ⟨_, _, _, ⟨counts, rfl⟩, ⟨_, _, _, ⟨-, rfl⟩, ⟨rfl, rfl, short, rfl⟩, rfl⟩, rfl⟩
      exact ⟨⟨counts, short⟩, rfl⟩
    · rintro ⟨⟨counts, short⟩, rfl⟩
      exact ⟨count, _, _, ⟨counts, rfl⟩, ⟨_, _, _, ⟨small, rfl⟩, ⟨rfl, rfl, short, rfl⟩, rfl⟩, rfl⟩

variable {trailer : Read ε (Nat × Nat)} {version : Nat} {magic : List UInt8}

theorem eq_append_trailer (h : Reads trailer (Trails version)) {bytes : List UInt8}
    (long : 13 ≤ bytes.length) (marked : bytes.drop (bytes.length - 4) = magic)
    {count bodyLen : Nat} {cur : Cursor}
    (ran : trailer.run ⟨bytes.drop (bytes.length - 13), 0⟩ = .ok ((count, bodyLen), cur)) :
    (count < 2 ^ 32 ∧ bodyLen < 2 ^ 32) ∧
      bytes = bytes.take (bytes.length - 13) ++ trailerImage version count bodyLen magic := by
  obtain ⟨fields, rest, ⟨bounds, rfl⟩, here, -⟩ := (h _ _ _).mp ran
  change bytes.drop (bytes.length - 13) = _ at here
  have last : bytes.drop (bytes.length - 4) = rest := by
    have shift : bytes.length - 4 = (bytes.length - 13) + 9 := by omega
    rw [shift, ← List.drop_drop, here]
    exact List.drop_left' (by simp)
  rw [← last, marked] at here
  refine ⟨bounds, ?_⟩
  have both := (List.take_append_drop (bytes.length - 13) bytes).symm
  rw [here] at both
  simpa [trailerImage] using both

theorem trailer_of_append (h : Reads trailer (Trails version)) (front : List UInt8)
    {count bodyLen : Nat} (bounds : count < 2 ^ 32 ∧ bodyLen < 2 ^ 32) :
    (front ++ trailerImage version count bodyLen magic).drop (front.length + 9) = magic ∧
      ∃ cur, trailer.run ⟨trailerImage version count bodyLen magic, 0⟩ =
        .ok ((count, bodyLen), cur) := by
  have split : trailerImage version count bodyLen magic =
      (toBeBytes 4 count ++ (toBeBytes 1 version ++ toBeBytes 4 bodyLen)) ++ magic := by
    simp [trailerImage]
  refine ⟨?_, _, (h _ (count, bodyLen) _).mpr ⟨_, magic, ⟨bounds, rfl⟩, split, rfl⟩⟩
  rw [← List.drop_drop, List.drop_left, split]
  exact List.drop_left' (by simp)

/-- What is parsed is some bodies, counted, each with its own trailer after it. -/
theorem parse_eq_ok (short unmarked none : ε) (unlike : Nat → ε) {body : Nat → Nat → Read ε α}
    {F : Nat → α → List UInt8 → Prop} (four : magic.length = 4)
    (h : Reads trailer (Trails version))
    (bodies : ∀ count front a cur, (body count front.length).run { buf := front } = .ok (a, cur) ↔
      F count a front ∧ cur = ⟨front, front.length⟩) {bytes : List UInt8} {a : α} :
    parse short unmarked none unlike trailer magic body bytes = .ok a ↔
      ∃ count front, count ≠ 0 ∧ (count < 2 ^ 32 ∧ front.length < 2 ^ 32) ∧ F count a front ∧
        bytes = front ++ trailerImage version count front.length magic := by
  unfold parse
  constructor
  · intro h'
    split at h'
    · cases h'
    rename_i long
    dsimp only at h'
    split at h'
    · cases h'
    rename_i marked
    cases ran : trailer.run { buf := bytes.drop (bytes.length - 13) } with
    | error e =>
      rw [ran] at h'
      cases h'
    | ok read =>
      obtain ⟨⟨count, bodyLen⟩, cur⟩ := read
      rw [ran] at h'
      change (if count = 0 then .error none
        else if bodyLen ≠ bytes.length - 13 then .error (unlike (bytes.length - 13))
        else ((body count (bytes.length - 13)).run { buf := bytes.take (bytes.length - 13) } >>=
          fun read => Except.ok read.1)) = Except.ok a at h'
      split at h'
      · cases h'
      rename_i some
      split at h'
      · cases h'
      rename_i meets
      obtain ⟨bounds, here⟩ := eq_append_trailer h (Nat.not_lt.mp long) (not_not.mp marked) ran
      have width : (bytes.take (bytes.length - 13)).length = bytes.length - 13 := by
        rw [List.length_take]
        omega
      have meets := not_not.mp meets
      generalize hfront : bytes.take (bytes.length - 13) = front at *
      rw [← width] at h' meets
      subst meets
      cases read : (body count front.length).run { buf := front } with
      | error e =>
        rw [read] at h'
        cases h'
      | ok value =>
        obtain ⟨value, stop⟩ := value
        rw [read] at h'
        cases h'
        exact ⟨count, front, some, bounds, ((bodies count front value stop).mp read).1, here⟩
  · rintro ⟨count, front, some, bounds, valid, rfl⟩
    have length : (front ++ trailerImage version count front.length magic).length =
        front.length + 13 := by
      rw [List.length_append, length_trailerImage _ _ _ four]
    obtain ⟨marked, cur, ran⟩ := @trailer_of_append _ _ _ magic h front _ _ bounds
    have back : front.length + 13 - 4 = front.length + 9 := by omega
    have reads := (bodies count front a _).mpr ⟨valid, rfl⟩
    rw [length, if_neg (by omega)]
    dsimp only
    rw [back, if_neg (not_not.mpr marked), Nat.add_sub_cancel, List.drop_left, List.take_left, ran]
    change (if count = 0 then .error none
      else if front.length ≠ front.length then .error (unlike front.length)
      else ((body count front.length).run { buf := front } >>= fun read => Except.ok read.1)) =
        Except.ok a
    rw [if_neg some, if_neg (not_not.mpr rfl), reads]
    rfl

end Trailer
