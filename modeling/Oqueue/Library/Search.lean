import Mathlib

/-!
# Finding the newest of a contiguous line

Numbers are written in order from zero and never removed, and the newest is
looked for one probe at a time: doubling until a probe is answered absent, then
bisecting. The line may grow between two probes, so what a search returns was
present when probed and is no older than the newest was at its start.
-/

universe u
variable {α : Type u}

/-- A search waiting on a probe, with what it has read so far. -/
inductive Search (α : Type u) where
  | first
  | doubling (present : Nat) (value : α) (absent : Nat)
  | bisecting (present : Nat) (value : α) (absent probes : Nat)
  deriving DecidableEq, Repr

namespace Search

inductive Outcome (α : Type u) where
  | ask (search : Search α)
  | found (newest : Option (Nat × α))
  | overflow (absent : Nat)
  | spun
  deriving DecidableEq, Repr

/-- The number the search is waiting to hear about. -/
def probe : Search α → Nat
  | first => 0
  | doubling _ _ absent => absent
  | bisecting present _ absent _ => present + (absent - present) / 2

/-- The newest number the search has read, and what it read there. -/
def observed : Search α → Option (Nat × α)
  | first => none
  | doubling present value _ => some (present, value)
  | bisecting present value _ _ => some (present, value)

def bisect (present : Nat) (value : α) (absent : Nat) : Nat → Outcome α
  | 0 => .spun
  | probes + 1 =>
    if absent - present ≤ 1 then .found (some (present, value))
    else .ask (bisecting present value absent probes)

/-- Runs on with the answer to the probe. No number reaches `limit`. -/
def resume (limit rounds : Nat) : Search α → Option α → Outcome α
  | first, none => .found none
  | first, some value => .ask (doubling 0 value 1)
  | doubling _ _ absent, some value =>
    if absent * 2 < limit then .ask (doubling absent value (absent * 2)) else .overflow absent
  | doubling present value absent, none => bisect present value absent rounds
  | bisecting present _ absent probes, some value =>
    bisect (present + (absent - present) / 2) value absent probes
  | bisecting present value absent probes, none =>
    bisect present value (present + (absent - present) / 2) probes

/-- What the search has read once the probe is answered. -/
def seen (search : Search α) : Option α → Option (Nat × α)
  | some value => some (search.probe, value)
  | none => search.observed

variable {limit rounds : Nat}

theorem bisect_cases {present absent probes : Nat} {value : α} {outcome : Outcome α}
    (h : bisect present value absent probes = outcome) :
    outcome = .spun ∨ (absent ≤ present + 1 ∧ outcome = .found (some (present, value))) ∨
      ∃ left, outcome = .ask (bisecting present value absent left) := by
  cases probes with
  | zero => exact .inl h.symm
  | succ probes =>
    simp only [bisect] at h
    split at h
    · exact .inr (.inl ⟨by omega, h.symm⟩)
    · exact .inr (.inr ⟨probes, h.symm⟩)

theorem observed_of_ask {search next : Search α} {answer : Option α}
    (h : search.resume limit rounds answer = .ask next) : next.observed = search.seen answer := by
  cases search with
  | first =>
    cases answer with
    | none => simp [resume] at h
    | some value =>
      cases h
      rfl
  | doubling present value absent =>
    cases answer with
    | none =>
      obtain h | ⟨-, h⟩ | ⟨left, h⟩ := bisect_cases h <;> cases h
      rfl
    | some read =>
      simp only [resume] at h
      split at h <;> cases h
      rfl
  | bisecting present value absent probes =>
    cases answer with
    | none =>
      obtain h | ⟨-, h⟩ | ⟨left, h⟩ := bisect_cases h <;> cases h
      rfl
    | some read =>
      obtain h | ⟨-, h⟩ | ⟨left, h⟩ := bisect_cases h <;> cases h
      rfl

theorem newest_of_found {search : Search α} {answer : Option α} {newest : Option (Nat × α)}
    (h : search.resume limit rounds answer = .found newest) : newest = search.seen answer := by
  cases search with
  | first =>
    cases answer with
    | none =>
      cases h
      rfl
    | some value => cases h
  | doubling present value absent =>
    cases answer with
    | none =>
      obtain h | ⟨-, h⟩ | ⟨left, h⟩ := bisect_cases h <;> cases h
      rfl
    | some read =>
      simp only [resume] at h
      split at h <;> cases h
  | bisecting present value absent probes =>
    cases answer with
    | none =>
      obtain h | ⟨-, h⟩ | ⟨left, h⟩ := bisect_cases h <;> cases h
      rfl
    | some read =>
      obtain h | ⟨-, h⟩ | ⟨left, h⟩ := bisect_cases h <;> cases h
      rfl

/-- Every number up to `lo` is below the first the search takes for absent. -/
def Above (lo : Nat) : Search α → Prop
  | bisecting _ _ absent _ => lo < absent
  | _ => True

def Outcome.Above (lo : Nat) : Outcome α → Prop
  | ask next => next.Above lo
  | found newest => ∃ number value, newest = some (number, value) ∧ lo ≤ number
  | _ => True

theorem bisect_above {lo present absent probes : Nat} {value : α} (lt : lo < absent) :
    (bisect present value absent probes).Above lo := by
  obtain h | ⟨near, h⟩ | ⟨left, h⟩ := bisect_cases (rfl : bisect present value absent probes = _)
  · rw [h]
    trivial
  · rw [h]
    exact ⟨present, value, rfl, by omega⟩
  · rw [h]
    exact lt

/-- What was there before the search is not passed over: as long as every absent
answer is about a number past `lo`, the search ends at `lo` or beyond. -/
theorem Above.resume {lo : Nat} {search : Search α} {answer : Option α} (above : search.Above lo)
    (absent : answer = none → lo < search.probe) :
    (search.resume limit rounds answer).Above lo := by
  cases search with
  | first =>
    cases answer with
    | none => exact absurd (absent rfl) (Nat.not_lt_zero lo)
    | some value => trivial
  | doubling present value bound =>
    cases answer with
    | none => exact bisect_above (absent rfl)
    | some read =>
      simp only [Search.resume]
      split <;> trivial
  | bisecting present value bound probes =>
    cases answer with
    | none => exact bisect_above (absent rfl)
    | some read => exact bisect_above above

def Outcome.Over : Outcome α → Prop
  | ask _ => False
  | _ => True

/-- Goes on for so many probes, the `k`-th of them answered by `read k`. -/
def run (limit rounds : Nat) (read : Nat → Nat → Option α) : Nat → Nat → Search α → Outcome α
  | 0, _, search => .ask search
  | fuel + 1, asked, search =>
    match search.resume limit rounds (read asked search.probe) with
    | .ask next => run limit rounds read fuel (asked + 1) next
    | outcome => outcome

variable {read : Nat → Nat → Option α}

theorem run_ask {search next : Search α} {asked : Nat}
    (resumed : search.resume limit rounds (read asked search.probe) = .ask next) (fuel : Nat) :
    run limit rounds read (fuel + 1) asked search = run limit rounds read fuel (asked + 1) next := by
  rw [run, resumed]

theorem run_ends {search : Search α} {asked : Nat} {outcome : Outcome α}
    (resumed : search.resume limit rounds (read asked search.probe) = outcome)
    (ends : outcome.Over) (fuel : Nat) : run limit rounds read (fuel + 1) asked search = outcome := by
  rw [run]
  cases outcome with
  | ask next => exact ends.elim
  | _ => rw [resumed]

theorem run_of_le {search : Search α} {asked fuel more : Nat} (le : fuel ≤ more)
    (ends : (run limit rounds read fuel asked search).Over) :
    run limit rounds read more asked search = run limit rounds read fuel asked search := by
  induction fuel generalizing search asked more with
  | zero => exact ends.elim
  | succ fuel ih =>
    obtain ⟨more, rfl⟩ := Nat.exists_eq_add_of_le' (Nat.lt_of_lt_of_le (Nat.succ_pos fuel) le)
    cases resumed : search.resume limit rounds (read asked search.probe) with
    | ask next =>
      rw [run_ask resumed] at ends ⊢
      rw [run_ask resumed]
      exact ih (by omega) ends
    | _ => rw [run_ends resumed trivial, run_ends resumed trivial]

/-- What a search ends with was there when it was asked about. -/
theorem read_of_run {search : Search α} {asked fuel number : Nat} {value : α}
    (seen : ∀ n v, search.observed = some (n, v) → ∃ k, k < asked ∧ read k n = some v)
    (found : run limit rounds read fuel asked search = .found (some (number, value))) :
    ∃ k, k < asked + fuel ∧ read k number = some value := by
  induction fuel generalizing search asked with
  | zero => cases found
  | succ fuel ih =>
    have observed (n : Nat) (v : α) (h : search.seen (read asked search.probe) = some (n, v)) :
        ∃ k, k < asked + 1 ∧ read k n = some v := by
      cases answer : read asked search.probe with
      | none =>
        rw [answer] at h
        obtain ⟨k, earlier, there⟩ := seen n v h
        exact ⟨k, Nat.lt_succ_of_lt earlier, there⟩
      | some read =>
        rw [answer] at h
        cases h
        exact ⟨asked, Nat.lt_succ_self _, answer⟩
    cases resumed : search.resume limit rounds (read asked search.probe) with
    | ask next =>
      rw [run_ask resumed] at found
      have seenNext (n : Nat) (v : α) (h : next.observed = some (n, v)) :=
        observed n v (observed_of_ask resumed ▸ h)
      obtain ⟨k, lt, there⟩ := ih seenNext found
      exact ⟨k, by omega, there⟩
    | found newest =>
      rw [run_ends resumed trivial] at found
      cases found
      obtain ⟨k, lt, there⟩ := observed number value (newest_of_found resumed).symm
      exact ⟨k, by omega, there⟩
    | overflow absent =>
      rw [run_ends resumed trivial] at found
      cases found
    | spun =>
      rw [run_ends resumed trivial] at found
      cases found

theorem Above.run {lo : Nat} {search : Search α} (above : search.Above lo)
    (absent : ∀ k n, read k n = none → lo < n) (asked fuel : Nat) :
    (search.run limit rounds read fuel asked).Above lo := by
  induction fuel generalizing search asked with
  | zero => exact above
  | succ fuel ih =>
    have after := @Above.resume _ limit rounds _ _ _ above (absent asked search.probe)
    cases resumed : search.resume limit rounds (read asked search.probe) with
    | ask next =>
      rw [resumed] at after
      rw [run_ask resumed]
      exact ih after (asked + 1)
    | _ =>
      rw [resumed] at after
      rw [run_ends resumed trivial]
      exact after

/-- Between a number that is there and one that is not, a bisection ends in as many probes as
the distance has binary digits. -/
theorem run_bisecting (width : Nat) (present : Nat) (value : α) {absent probes fuel asked : Nat}
    (apart : present + 1 < absent) (near : absent - present ≤ 2 ^ width) (left : width ≤ probes)
    (enough : width ≤ fuel) : ∃ number value',
      run limit rounds read fuel asked (bisecting present value absent probes) =
        .found (some (number, value')) ∧ number < absent := by
  induction width generalizing present value absent probes fuel asked with
  | zero =>
    rw [Nat.pow_zero] at near
    omega
  | succ width ih =>
    obtain ⟨fuel, rfl⟩ := Nat.exists_eq_add_of_le' (Nat.lt_of_lt_of_le (Nat.succ_pos width) enough)
    obtain ⟨probes, rfl⟩ := Nat.exists_eq_add_of_le' (Nat.lt_of_lt_of_le (Nat.succ_pos width) left)
    rw [Nat.pow_succ] at near
    -- Whatever the answer, half of the distance is left.
    have halved (low high : Nat) (v : α) (lt : low < high) (half : high - low ≤ 2 ^ width)
        (inside : high ≤ absent) (resumed : (bisecting present value absent (probes + 1)).resume
          limit rounds (read asked (bisecting present value absent (probes + 1)).probe) =
            bisect low v high (probes + 1)) : ∃ number value',
        run limit rounds read (fuel + 1) asked (bisecting present value absent (probes + 1)) =
          .found (some (number, value')) ∧ number < absent := by
      rw [bisect] at resumed
      split at resumed
      · rw [run_ends resumed trivial]
        exact ⟨low, v, rfl, Nat.lt_of_lt_of_le lt inside⟩
      · rename_i wide
        rw [run_ask resumed]
        obtain ⟨number, value', found, below⟩ :=
          @ih low v high probes fuel (asked + 1) (by omega) half (by omega) (by omega)
        exact ⟨number, value', found, Nat.lt_of_lt_of_le below inside⟩
    cases answer : read asked (bisecting present value absent (probes + 1)).probe with
    | none =>
      refine halved present (present + (absent - present) / 2) value (by omega) (by omega)
        (by omega) ?_
      rw [answer]
      rfl
    | some found =>
      refine halved (present + (absent - present) / 2) absent found (by omega) (by omega)
        (Nat.le_refl _) ?_
      rw [answer]
      rfl

/-- From a power of two on, a search ends below the limit's half, or finds that half there. -/
theorem run_doubling {bits : Nat} (left : Nat) (present : Nat) (value : α) {fuel asked : Nat}
    (room : bits ≤ rounds) (doubles : 1 ≤ left) (within : left ≤ bits)
    (below : present < 2 ^ (bits - left)) (enough : left + bits ≤ fuel) : ∃ outcome,
      run (2 ^ bits) rounds read fuel asked (doubling present value (2 ^ (bits - left))) = outcome ∧
      ((∃ number value', outcome = .found (some (number, value')) ∧ number < 2 ^ (bits - 1)) ∨
        outcome = .overflow (2 ^ (bits - 1)) ∧ ∃ k, (read k (2 ^ (bits - 1))).isSome) := by
  induction left generalizing present value fuel asked with
  | zero => omega
  | succ left ih =>
    obtain ⟨fuel, rfl⟩ := Nat.exists_eq_add_of_le' (show 1 ≤ fuel by omega)
    have half : 2 ^ (bits - (left + 1)) ≤ 2 ^ (bits - 1) :=
      Nat.pow_le_pow_right (by decide) (by omega)
    cases answer : read asked (2 ^ (bits - (left + 1))) with
    | none =>
      have resumed : (doubling present value (2 ^ (bits - (left + 1)))).resume (2 ^ bits) rounds
          (read asked (doubling present value (2 ^ (bits - (left + 1)))).probe) =
            bisect present value (2 ^ (bits - (left + 1))) rounds := by
        change Search.resume _ _ _ (read asked (2 ^ (bits - (left + 1)))) = _
        rw [answer]
        rfl
      obtain ⟨rounds, rfl⟩ := Nat.exists_eq_add_of_le' (show 1 ≤ rounds by omega)
      rw [bisect] at resumed
      split at resumed
      · rw [run_ends resumed trivial]
        exact ⟨_, rfl, .inl ⟨present, value, rfl, Nat.lt_of_lt_of_le below half⟩⟩
      · rename_i wide
        rw [run_ask resumed]
        obtain ⟨number, value', found, less⟩ := @run_bisecting _ (2 ^ bits) (rounds + 1) read
          (bits - 1) present value (2 ^ (bits - (left + 1))) rounds fuel (asked + 1) (by omega)
          (by omega) (by omega) (by omega)
        exact ⟨_, rfl, .inl ⟨number, value', found, Nat.lt_of_lt_of_le less half⟩⟩
    | some found =>
      by_cases last : left = 0
      · subst last
        have resumed : (doubling present value (2 ^ (bits - 1))).resume (2 ^ bits) rounds
            (read asked (doubling present value (2 ^ (bits - 1))).probe) =
              .overflow (2 ^ (bits - 1)) := by
          change Search.resume _ _ _ (read asked (2 ^ (bits - 1))) = _
          rw [answer]
          refine if_neg (Nat.not_lt.mpr ?_)
          rw [← Nat.pow_succ]
          exact Nat.pow_le_pow_right (by decide) (by omega)
        rw [run_ends resumed trivial]
        exact ⟨_, rfl, .inr ⟨rfl, asked, by rw [answer]; rfl⟩⟩
      · have doubled : 2 ^ (bits - (left + 1)) * 2 = 2 ^ (bits - left) := by
          rw [← Nat.pow_succ]
          congr 1
          omega
        have resumed : (doubling present value (2 ^ (bits - (left + 1)))).resume (2 ^ bits) rounds
            (read asked (doubling present value (2 ^ (bits - (left + 1)))).probe) =
              .ask (doubling (2 ^ (bits - (left + 1))) found (2 ^ (bits - left))) := by
          change Search.resume _ _ _ (read asked (2 ^ (bits - (left + 1)))) = _
          rw [answer, resume, doubled, if_pos]
          exact Nat.pow_lt_pow_right (by decide) (by omega)
        rw [run_ask resumed]
        refine ih _ found (by omega) (by omega) ?_ (by omega)
        rw [← doubled]
        have := Nat.two_pow_pos (bits - (left + 1))
        omega

/-- The `k`-th probe finds the numbers up to `heights k`, and the heights never fall. -/
structure Growing (read : Nat → Nat → Option α) (heights : Nat → Nat) : Prop where
  grows : Monotone heights
  there : ∀ k number, (read k number).isSome ↔ number ≤ heights k

/-- A search of a line that grows ends at a number that was there when it was asked about and is
no older than the newest was at the start, or else finds the half of the range there. -/
theorem Growing.ends {heights : Nat → Nat} (growing : Growing read heights) {bits : Nat}
    (room : bits ≤ rounds) (positive : 1 ≤ bits) : ∃ outcome,
      (∀ fuel, 2 * bits + 1 ≤ fuel → run (2 ^ bits) rounds read fuel 0 first = outcome) ∧
      ((∃ number value k, outcome = .found (some (number, value)) ∧ number < 2 ^ (bits - 1) ∧
          k < 2 * bits + 1 ∧ read k number = some value ∧ heights 0 ≤ number) ∨
        outcome = .overflow (2 ^ (bits - 1)) ∧ ∃ k, 2 ^ (bits - 1) ≤ heights k) := by
  have absent : ∀ k number, read k number = none → heights 0 < number := by
    intro k number nothing
    apply Nat.lt_of_not_le
    intro le
    have there := (growing.there k number).mpr (le.trans (growing.grows (Nat.zero_le k)))
    rw [nothing] at there
    cases there
  obtain ⟨value, start⟩ := Option.isSome_iff_exists.mp ((growing.there 0 0).mpr (Nat.zero_le _))
  have resumed : (first : Search α).resume (2 ^ bits) rounds (read 0 (first : Search α).probe) =
      .ask (doubling 0 value (2 ^ (bits - bits))) := by
    change Search.resume _ _ _ (read 0 0) = _
    rw [start, Nat.sub_self]
    rfl
  obtain ⟨outcome, same, which⟩ := @run_doubling _ rounds read bits bits 0 value (2 * bits) 1 room
    positive (Nat.le_refl _) (Nat.two_pow_pos _) (by omega)
  rw [← run_ask resumed] at same
  have above : outcome.Above (heights 0) := by
    have start : (first : Search α).Above (heights 0) := trivial
    rw [← same]
    exact start.run absent 0 (2 * bits + 1)
  refine ⟨outcome, ?_, ?_⟩
  · intro fuel enough
    rw [← same]
    apply run_of_le enough
    rw [same]
    rcases which with ⟨number, value', rfl, -⟩ | ⟨rfl, -⟩
    · trivial
    · trivial
  · rcases which with ⟨number, value', rfl, below⟩ | ⟨rfl, k, there⟩
    · obtain ⟨k, earlier, read⟩ := @read_of_run _ _ _ _ first _ _ _ _ nofun same
      obtain ⟨number', value'', h, le⟩ := above
      cases h
      exact .inl ⟨number, value', k, rfl, below, by omega, read, le⟩
    · exact .inr ⟨rfl, k, (growing.there k _).mp there⟩

end Search
