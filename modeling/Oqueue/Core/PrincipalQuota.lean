import Oqueue.Broker.Authz
import Oqueue.Library.Table

/-!
# How many requests of a principal are in flight

One quota is shared by every connection of a broker. Whoever is admitted holds a guard, and
dropping the guard is the only way the count goes down.
-/

namespace Oqueue

open Broker (Principal)

structure PrincipalQuota where
  maxInFlight : Nat
  inFlight : Finmap fun _ : Principal => Nat := ∅
  overrides : Finmap fun _ : Principal => Nat := ∅
  deriving DecidableEq

namespace PrincipalQuota

def limitFor (self : PrincipalQuota) (principal : Principal) : Nat :=
  (self.overrides.lookup principal).getD self.maxInFlight

def setOverride (self : PrincipalQuota) (principal : Principal) : Option Nat → PrincipalQuota
  | some limit => { self with overrides := self.overrides.insert principal limit }
  | none => { self with overrides := self.overrides.erase principal }

def count (self : PrincipalQuota) (principal : Principal) : Nat :=
  (self.inFlight.lookup principal).getD 0

/-- The quota after one more request, and whether that was admitted. -/
def tryAdmit (self : PrincipalQuota) (principal : Principal) : PrincipalQuota × Bool :=
  let count := self.count principal
  -- a refusal leaves the entry behind that it looked at
  if self.limitFor principal ≤ count then
    ({ self with inFlight := self.inFlight.insert principal count }, false)
  else ({ self with inFlight := self.inFlight.insert principal (count + 1) }, true)

/-- A guard is dropped. -/
def release (self : PrincipalQuota) (principal : Principal) : PrincipalQuota :=
  match self.inFlight.lookup principal with
  | none => self
  | some count =>
    if count - 1 = 0 then { self with inFlight := self.inFlight.erase principal }
    else { self with inFlight := self.inFlight.insert principal (count - 1) }

variable (self : PrincipalQuota) (principal other : Principal)

theorem count_setOverride (limit : Option Nat) :
    (self.setOverride principal limit).count other = self.count other := by
  cases limit with
  | none => rfl
  | some limit => rfl

theorem limitFor_setOverride (limit : Option Nat) :
    (self.setOverride principal limit).limitFor other =
      if other = principal then limit.getD self.maxInFlight else self.limitFor other := by
  cases limit with
  | none =>
    unfold setOverride limitFor
    dsimp only
    rw [Table.lookup_erase_eq]
    split <;> rfl
  | some limit =>
    unfold setOverride limitFor
    dsimp only
    rw [Table.lookup_insert_eq]
    split <;> rfl

theorem limitFor_tryAdmit : (self.tryAdmit principal).1.limitFor other = self.limitFor other := by
  unfold tryAdmit
  dsimp only
  split <;> rfl

theorem limitFor_release : (self.release principal).limitFor other = self.limitFor other := by
  unfold release
  split
  · rfl
  · split <;> rfl

theorem maxInFlight_tryAdmit : (self.tryAdmit principal).1.maxInFlight = self.maxInFlight := by
  unfold tryAdmit
  dsimp only
  split <;> rfl

theorem maxInFlight_release : (self.release principal).maxInFlight = self.maxInFlight := by
  unfold release
  split
  · rfl
  · split <;> rfl

theorem maxInFlight_setOverride (limit : Option Nat) :
    (self.setOverride principal limit).maxInFlight = self.maxInFlight := by
  cases limit <;> rfl

theorem count_tryAdmit : (self.tryAdmit principal).1.count other = self.count other +
    if (self.tryAdmit principal).2 = true ∧ other = principal then 1 else 0 := by
  unfold tryAdmit
  dsimp only
  split
  · unfold count
    dsimp only
    rw [Table.lookup_insert_eq]
    rw [if_neg (c := false = true ∧ other = principal) fun both => Bool.false_ne_true both.1]
    split
    · rename_i same
      rw [same]
      rfl
    · rfl
  · unfold count
    dsimp only
    rw [Table.lookup_insert_eq]
    by_cases same : other = principal
    · rw [if_pos same, if_pos ⟨rfl, same⟩, same]
      rfl
    · rw [if_neg same, if_neg fun both => same both.2]
      rfl

theorem tryAdmit_iff : (self.tryAdmit principal).2 = true ↔
    self.count principal < self.limitFor principal := by
  unfold tryAdmit
  dsimp only
  split
  · rename_i full
    exact iff_of_false Bool.false_ne_true (Nat.not_lt.mpr full)
  · rename_i room
    exact iff_of_true rfl (Nat.not_le.mp room)

theorem count_release : (self.release principal).count other =
    self.count other - if other = principal then 1 else 0 := by
  unfold release
  split
  · rename_i absent
    split
    · rename_i same
      unfold count
      rw [same, absent]
      rfl
    · rfl
  · rename_i held there
    unfold count
    split
    · rename_i last
      dsimp only
      rw [Table.lookup_erase_eq]
      split
      · rename_i same
        rw [same, there]
        exact last.symm
      · rfl
    · dsimp only
      rw [Table.lookup_insert_eq]
      split
      · rename_i same
        rw [same, there]
        rfl
      · rfl

end PrincipalQuota

end Oqueue
