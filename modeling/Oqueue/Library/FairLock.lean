import Mathlib

/-!
# A lock granted in the order it is asked for

Any number of holders share its read side and one has its write side. Whoever asks waits
behind all who asked before, also behind a writer that waits for the readers to leave.
-/

universe u
variable {ι : Type u}

inductive Side where
  | read
  | write
  deriving DecidableEq, Repr

/-- A lock: who holds its sides, once for each time it was granted, and who waits. -/
structure FairLock (ι : Type u) where
  readers : List ι := []
  writer : Option ι := none
  waiting : List (ι × Side) := []

namespace FairLock

/-- Whether this side can be had beside what is held. -/
def admits (self : FairLock ι) : Side → Bool
  | .read => self.writer.isNone
  | .write => self.writer.isNone && self.readers.isEmpty

def ask (self : FairLock ι) (i : ι) (side : Side) : FairLock ι :=
  { self with waiting := self.waiting ++ [(i, side)] }

def give (self : FairLock ι) (i : ι) : Side → FairLock ι
  | .read => { self with readers := i :: self.readers }
  | .write => { self with writer := some i }

/-- Gives the first that waits what it asked for, if it can be had. -/
def grant (self : FairLock ι) : Option (ι × FairLock ι) :=
  match self.waiting with
  | [] => none
  | (i, side) :: rest =>
    if self.admits side then some (i, { self with waiting := rest }.give i side) else none

theorem grant_eq_some {self : FairLock ι} {given : ι × FairLock ι} : self.grant = some given ↔
    ∃ side rest, self.waiting = (given.1, side) :: rest ∧ self.admits side = true ∧
      given.2 = { self with waiting := rest }.give given.1 side := by
  obtain ⟨i, after⟩ := given
  unfold grant
  cases waiting : self.waiting with
  | nil => simp
  | cons first rest =>
    obtain ⟨j, side⟩ := first
    dsimp only
    split
    · rename_i admits
      constructor
      · intro granted
        cases granted
        exact ⟨side, rest, rfl, admits, rfl⟩
      · rintro ⟨side, rest, same, -, rfl⟩
        cases same
        rfl
    · rename_i refused
      constructor
      · exact nofun
      · rintro ⟨side, rest, same, admits, -⟩
        cases same
        exact absurd admits refused

variable [DecidableEq ι]

def release (self : FairLock ι) (i : ι) : Side → FairLock ι
  | .read => { self with readers := self.readers.erase i }
  | .write => { self with writer := none }

def withdraw (self : FairLock ι) (i : ι) : FairLock ι :=
  { self with waiting := self.waiting.filter (·.1 ≠ i) }

/-- Those who asked before `i`, which waits. -/
def ahead (self : FairLock ι) (i : ι) : List (ι × Side) := self.waiting.takeWhile (·.1 ≠ i)

variable {self : FairLock ι} {i j : ι}

/-- What `i` waits for `j` to do: to be served before it, or to let go of a side that
excludes the one it asks for. -/
def Blocks (self : FairLock ι) (j i : ι) : Prop := ∃ side, (i, side) ∈ self.waiting ∧
  ((∃ other, (j, other) ∈ self.ahead i) ∨ self.writer = some j ∨
    (side = .write ∧ j ∈ self.readers))

theorem ahead_eq {front back : List (ι × Side)} {side : Side}
    (split_ : self.waiting = front ++ (i, side) :: back)
    (once : (self.waiting.map Prod.fst).Nodup) : self.ahead i = front := by
  unfold ahead
  rw [split_, List.takeWhile_append_of_pos]
  · simp
  · intro waiting among
    rw [split_, List.map_append, List.nodup_append] at once
    refine decide_eq_true fun same => ?_
    exact once.2.2 waiting.1 (List.mem_map_of_mem among) i (by simp) same

/-- If everyone in a set waits for another of the set, and whoever has the write side does
not wait, then one of them waits for the write side, and a reader of the set behind it. -/
theorem exists_reader_behind_writer {stuck : Set ι} (some : stuck.Nonempty)
    (each : ∀ i ∈ stuck, ∃ j ∈ stuck, self.Blocks j i) (once : (self.waiting.map Prod.fst).Nodup)
    (holds : ∀ i, self.writer = .some i → ∀ side, (i, side) ∉ self.waiting) :
    ∃ front i back j, self.waiting = front ++ (i, .write) :: back ∧ i ∈ stuck ∧ j ∈ stuck ∧
      j ∈ self.readers ∧ (j = i ∨ ∃ side, (j, side) ∈ back) := by
  classical
  have waits {i : ι} (member : i ∈ stuck) : ∃ side, (i, side) ∈ self.waiting := by
    obtain ⟨j, -, side, among, -⟩ := each i member
    exact ⟨side, among⟩
  -- the first of them that waits cannot wait for one before it
  obtain ⟨i, member⟩ := some
  obtain ⟨side, among⟩ := waits member
  have found : (self.waiting.find? fun waiting => decide (waiting.1 ∈ stuck)).isSome :=
    List.find?_isSome.mpr ⟨_, among, decide_eq_true member⟩
  obtain ⟨⟨first, side⟩, found⟩ := Option.isSome_iff_exists.mp found
  obtain ⟨isStuck, front, back, split_, earlier⟩ := List.find?_eq_some_iff_append.mp found
  replace isStuck : first ∈ stuck := of_decide_eq_true isStuck
  replace earlier {j : ι} (stuck' : j ∈ stuck) {other : Side} : (j, other) ∉ front := by
    intro ahead
    have := earlier _ ahead
    simp [stuck'] at this
  obtain ⟨j, stuck', side', there, blocks⟩ := each first isStuck
  obtain ⟨other, among⟩ := waits stuck'
  rcases blocks with ⟨other, ahead⟩ | writes | ⟨rfl, reads⟩
  · rw [ahead_eq split_ once] at ahead
    exact absurd ahead (earlier stuck')
  · exact absurd among (holds j writes other)
  · obtain rfl : side = .write := by
      have here : (first, side) ∈ self.waiting := by
        rw [split_]
        simp
      exact congrArg Prod.snd (List.inj_on_of_nodup_map once here there rfl)
    refine ⟨front, first, back, j, split_, isStuck, stuck', reads, ?_⟩
    rw [split_] at among
    rcases List.mem_append.mp among with among | among
    · exact absurd among (earlier stuck')
    · rcases List.mem_cons.mp among with same | among
      · exact .inl (congrArg Prod.fst same)
      · exact .inr ⟨other, among⟩

end FairLock
