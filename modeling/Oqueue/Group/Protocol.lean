import Mathlib.Data.List.Basic

/-!
# Electing a leader and a protocol

The first member leads. The protocol is one that every member supports, the one most
members would rather have than the others, and on a tie the leader's earlier choice.
-/

namespace Oqueue

structure Candidate where
  memberId : String
  protocols : List String
  deriving DecidableEq, Repr

structure Elected where
  leader : String
  protocolName : String
  deriving DecidableEq, Repr

namespace Election

/-- The leader's protocols that every other member supports, in the leader's order. -/
def common (leader : Candidate) (rest : List Candidate) : List String :=
  rest.foldl (fun names member => names.filter (· ∈ member.protocols)) leader.protocols

def vote (name : String) : List (String × Nat) → List (String × Nat)
  | [] => []
  | entry :: rest =>
    if entry.1 = name then (name, entry.2 + 1) :: rest else entry :: vote name rest

/-- Each member votes for its own first choice among the candidates. -/
def count (candidates : List String) (members : List Candidate) : List (String × Nat) :=
  members.foldl (fun votes member => match member.protocols.find? (· ∈ candidates) with
    | none => votes
    | some name => vote name votes) (candidates.map fun name => (name, 0))

def winner (first : String × Nat) (rest : List (String × Nat)) : String × Nat :=
  rest.foldl (fun best entry => if best.2 < entry.2 then entry else best) first

end Election

open Election

def elect : List Candidate → Option Elected
  | [] => none
  | leader :: rest =>
    match count (common leader rest) (leader :: rest) with
    | [] => none
    | first :: others => some ⟨leader.memberId, (winner first others).1⟩

namespace Election

theorem mem_common {leader : Candidate} {rest : List Candidate} {name : String} :
    name ∈ common leader rest ↔ ∀ member ∈ leader :: rest, name ∈ member.protocols := by
  have narrowed (names : List String) : name ∈ rest.foldl
      (fun names member => names.filter (· ∈ member.protocols)) names ↔
      name ∈ names ∧ ∀ member ∈ rest, name ∈ member.protocols := by
    induction rest generalizing names with
    | nil => simp
    | cons member rest ih => simp [ih, and_assoc]
  unfold common
  rw [narrowed, List.forall_mem_cons]

theorem map_fst_vote (name : String) (votes : List (String × Nat)) :
    (vote name votes).map Prod.fst = votes.map Prod.fst := by
  induction votes with
  | nil => rfl
  | cons entry rest ih =>
    unfold vote
    split
    · rename_i same
      simp [same]
    · simp [ih]

theorem map_fst_count (candidates : List String) (members : List Candidate) :
    (count candidates members).map Prod.fst = candidates := by
  have kept (votes : List (String × Nat)) : (members.foldl (fun votes member =>
      match member.protocols.find? (· ∈ candidates) with
      | none => votes
      | some name => vote name votes) votes).map Prod.fst = votes.map Prod.fst := by
    induction members generalizing votes with
    | nil => rfl
    | cons member rest ih =>
      rw [List.foldl_cons, ih]
      split
      · rfl
      · exact map_fst_vote _ votes
  unfold count
  rw [kept, List.map_map]
  exact List.map_id candidates

theorem winner_mem (first : String × Nat) (rest : List (String × Nat)) :
    winner first rest ∈ first :: rest := by
  unfold winner
  induction rest generalizing first with
  | nil => simp
  | cons entry rest ih =>
    rw [List.foldl_cons]
    split
    · exact List.mem_cons_of_mem _ (ih entry)
    · rcases List.mem_cons.mp (ih first) with same | later
      · rw [same]
        exact List.mem_cons_self ..
      · exact List.mem_cons_of_mem _ (List.mem_cons_of_mem _ later)

end Election

theorem elect_eq_some {members : List Candidate} {elected : Elected}
    (h : elect members = some elected) : members.head?.map Candidate.memberId = some elected.leader ∧
      ∀ member ∈ members, elected.protocolName ∈ member.protocols := by
  cases members with
  | nil => cases h
  | cons leader rest =>
    simp only [elect] at h
    split at h
    · cases h
    · rename_i first others counted
      cases h
      refine ⟨rfl, mem_common.mp ?_⟩
      rw [← map_fst_count (common leader rest) (leader :: rest), counted]
      exact List.mem_map_of_mem (winner_mem first others)

/-- Someone is elected as soon as there is a member and a protocol that all support. -/
theorem elect_isSome {members : List Candidate} :
    (elect members).isSome ↔ members ≠ [] ∧ ∃ name, ∀ member ∈ members, name ∈ member.protocols := by
  cases members with
  | nil => simp [elect]
  | cons leader rest =>
    have counted := map_fst_count (common leader rest) (leader :: rest)
    constructor
    · intro elected
      obtain ⟨elected, h⟩ := Option.isSome_iff_exists.mp elected
      exact ⟨by simp, elected.protocolName, (elect_eq_some h).2⟩
    · intro found
      obtain ⟨-, name, supported⟩ := found
      have among := mem_common.mpr supported
      simp only [elect]
      split
      · rename_i nobody
        rw [nobody] at counted
        rw [← counted] at among
        cases among
      · rfl

end Oqueue
