import Oqueue.Lease.Lease
import Oqueue.Log.Segments

/-!
# The newest term, and the newest base

A holder looks for the newest lease term, and an `open` for the newest base, by asking the
store about one number at a time. Others may write further ones in the meantime.
-/

namespace Oqueue

open Search

/-- `newest`, its `k`-th request for a term answered by `read k`, after so many of them. -/
def Lease.newest (read : Nat → Nat → Option Int) (requests : Nat) :
    Option (Except Error (Option (Nat × Int))) :=
  match Search.run (2 ^ 64) Lease.searchProbes read requests 0 .first with
  | .ask _ => none
  | .found newest => some (.ok newest)
  | .overflow absent => some (.error (.commitVersionOverflow absent absent))
  | .spun => some (.error (.malformedMetadataSegment 0))

/-- `read_base`, its `k`-th request for a base answered by `probe k`, after so many of them. -/
def Log.readBase (probe : Nat → Nat → Option Log.Base) (requests : Nat) :
    Option (Except Error (Option Nat × Log.Base)) :=
  match Search.run (2 ^ 64) Log.searchProbes probe requests 0 .first with
  | .ask _ => none
  | .found none => some (.ok (none, ⟨0, none⟩))
  | .found (some (generation, base)) => some (.ok (some generation, base))
  | .overflow absent => some (.error (.commitVersionOverflow absent absent))
  | .spun => some (.error (.malformedMetadataSegment 0))

/-- Of a line that stands still the search finds the newest number, below half the range. Of
one that grows it finds what was there at some request, no older than the newest was at the
first, or ends with an overflow once the line has come to half the range. -/
structure Finds {α β : Type} (heights : Nat → Nat) (read : Nat → Nat → Option α)
    (made : Nat → α → β) (result : Nat → Option (Except Error β)) : Prop where
  still : ∀ hi, hi < 2 ^ 63 → (∀ k, heights k = hi) → ∃ value k, read k hi = some value ∧
    ∀ requests, 129 ≤ requests → result requests = some (.ok (made hi value))
  grown : (∃ number value k, k < 129 ∧ read k number = some value ∧ heights 0 ≤ number ∧
      number < 2 ^ 63 ∧
      ∀ requests, 129 ≤ requests → result requests = some (.ok (made number value))) ∨
    (∃ k, 2 ^ 63 ≤ heights k) ∧ ∀ requests, 129 ≤ requests →
      result requests = some (.error (.commitVersionOverflow (2 ^ 63) (2 ^ 63)))

theorem Finds.of_run {α β : Type} {heights : Nat → Nat} {read : Nat → Nat → Option α}
    {made : Nat → α → β} {result : Nat → Option (Except Error β)} (rounds : Nat)
    (growing : Growing read heights) (room : 64 ≤ rounds)
    (found : ∀ requests number value, Search.run (2 ^ 64) rounds read requests 0 .first =
      .found (some (number, value)) → result requests = some (.ok (made number value)))
    (overflow : ∀ requests absent, Search.run (2 ^ 64) rounds read requests 0 .first =
      .overflow absent → result requests = some (.error (.commitVersionOverflow absent absent))) :
    Finds heights read made result := by
  obtain ⟨outcome, ends, which⟩ := growing.ends room (by decide)
  rcases which with ⟨number, value, k, rfl, small, early, there, le⟩ | ⟨rfl, k, half⟩
  · have height : number ≤ heights k := (growing.there k number).mp (by rw [there]; rfl)
    have reads (requests : Nat) (enough : 129 ≤ requests) :=
      found requests number value (ends requests enough)
    refine ⟨?_, .inl ⟨number, value, k, early, there, le, small, reads⟩⟩
    intro hi _ constant
    rw [constant] at le height
    cases Nat.le_antisymm height le
    exact ⟨value, k, there, reads⟩
  · refine ⟨?_, .inr ⟨⟨k, half⟩, fun requests enough => overflow requests _ (ends requests enough)⟩⟩
    intro hi below constant
    rw [constant] at half
    exact absurd below (Nat.not_lt.mpr half)

theorem Lease.newest_finds {read : Nat → Nat → Option Int} {heights : Nat → Nat}
    (growing : Growing read heights) :
    Finds heights read (fun term expires => some (term, expires)) (Lease.newest read) := by
  apply Finds.of_run Lease.searchProbes growing (by decide)
  · intro requests term expires found
    rw [Lease.newest, found]
  · intro requests absent overflow
    rw [Lease.newest, overflow]

theorem Log.readBase_finds {probe : Nat → Nat → Option Log.Base} {heights : Nat → Nat}
    (growing : Growing probe heights) :
    Finds heights probe (fun generation base => (some generation, base)) (Log.readBase probe) := by
  apply Finds.of_run Log.searchProbes growing (by decide)
  · intro requests generation base found
    rw [Log.readBase, found]
  · intro requests absent overflow
    rw [Log.readBase, overflow]

/-- Where the line begins at zero, both searches find its newest number, or what has come
since they began. -/
theorem newest_exact {read : Nat → Nat → Option Int} {probe : Nat → Nat → Option Log.Base}
    {terms generations : Nat → Nat} (terming : Growing read terms)
    (basing : Growing probe generations) :
    Finds terms read (fun term expires => some (term, expires)) (Lease.newest read) ∧
      Finds generations probe (fun generation base => (some generation, base))
        (Log.readBase probe) :=
  ⟨Lease.newest_finds terming, Log.readBase_finds basing⟩

theorem newest_exact_four :
    (∀ requests, 129 ≤ requests →
      Lease.newest (fun _ term => if term ≤ 3 then some 0 else none) requests =
        some (.ok (some (3, 0)))) ∧
    ∀ requests, 129 ≤ requests →
      Log.readBase (fun _ generation => if generation ≤ 3 then some ⟨7, none⟩ else none) requests =
        some (.ok (some 3, ⟨7, none⟩)) := by
  have growing {α : Type} (value : α) : Growing
      (fun _ number => if number ≤ 3 then some value else none) (fun _ => 3) := by
    refine ⟨fun _ _ _ => Nat.le_refl 3, ?_⟩
    intro _ number
    by_cases le : number ≤ 3 <;> simp [le]
  obtain ⟨terms, bases⟩ := newest_exact (growing (0 : Int)) (growing (⟨7, none⟩ : Log.Base))
  constructor
  · obtain ⟨expires, k, read, found⟩ := terms.still 3 (by decide) (fun _ => rfl)
    cases read
    exact found
  · obtain ⟨base, k, read, found⟩ := bases.still 3 (by decide) (fun _ => rfl)
    cases read
    exact found

/-- A line that begins past zero is not found at all. -/
theorem newest_one_unfound : ¬ ∀ (read : Nat → Nat → Option Int) (lo hi : Nat), lo ≤ hi →
    (∀ k number, (read k number).isSome ↔ lo ≤ number ∧ number ≤ hi) →
    ∃ requests expires, Lease.newest read requests = some (.ok (some (hi, expires))) := by
  intro finds
  obtain ⟨requests, expires, found⟩ :=
    finds (fun _ term => if term = 1 then some 0 else none) 1 1 (Nat.le_refl 1) (by
      intro _ number
      by_cases one : number = 1
      · simp [one]
      · simp only [if_neg one, Option.isSome_none, Bool.false_eq_true, false_iff]
        omega)
  cases requests with
  | zero => cases found
  | succ requests => cases found

end Oqueue
