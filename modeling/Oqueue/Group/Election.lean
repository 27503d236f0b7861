import Oqueue.Group.Protocol

/-!
# Who wins an election

Each member votes for the first protocol of its own that all of them support. The one
elected has the most votes, and of those with as many it comes first in the leader's list.
Whether anyone is elected depends only on which members there are, and leaving some of
them out never prevents it.
-/

namespace Oqueue

namespace Election

def Common (members : List Candidate) (name : String) : Prop :=
  ∀ member ∈ members, name ∈ member.protocols

instance (members : List Candidate) : DecidablePred (Common members) :=
  fun name => inferInstanceAs (Decidable (∀ member ∈ members, name ∈ member.protocols))

@[simp] theorem common_nil (name : String) : Common [] name := nofun

@[simp] theorem common_cons {member : Candidate} {rest : List Candidate} {name : String} :
    Common (member :: rest) name ↔ name ∈ member.protocols ∧ Common rest name :=
  List.forall_mem_cons

/-- The first of a member's protocols that every member supports. -/
def ballot (members : List Candidate) (member : Candidate) : Option String :=
  member.protocols.find? fun name => Common members name

def votes (members : List Candidate) (name : String) : Nat :=
  members.countP fun member => ballot members member = some name

def tally (entries : List (String × Nat)) (name : String) : Nat :=
  ((entries.find? fun entry => entry.1 = name).map Prod.snd).getD 0

/-- A name listed again is never voted for a second time. -/
def FirstOnly (entries : List (String × Nat)) : Prop :=
  entries.Pairwise fun earlier later => later.1 = earlier.1 → later.2 = 0

theorem tally_vote {entries : List (String × Nat)} {voted : String}
    (listed : voted ∈ entries.map Prod.fst) (name : String) :
    tally (vote voted entries) name = tally entries name + if name = voted then 1 else 0 := by
  unfold tally
  induction entries with
  | nil => cases listed
  | cons entry rest ih =>
    unfold vote
    by_cases here : entry.1 = voted
    · rw [if_pos here, List.find?_cons, List.find?_cons, here]
      by_cases same : voted = name
      · simp [same]
      · simp [same, Ne.symm same]
    · rw [if_neg here, List.find?_cons, List.find?_cons]
      by_cases same : entry.1 = name
      · have other : name ≠ voted := same ▸ here
        simp [same, other]
      · have further : voted ∈ rest.map Prod.fst := by
          rcases List.mem_cons.mp listed with first | further
          · exact absurd first.symm here
          · exact further
        simpa [same] using ih further

theorem mem_of_mem_vote {entries : List (String × Nat)} {voted : String} {entry : String × Nat}
    (h : entry ∈ vote voted entries) (other : entry.1 ≠ voted) : entry ∈ entries := by
  induction entries with
  | nil => cases h
  | cons head rest ih =>
    unfold vote at h
    split at h
    · rcases List.mem_cons.mp h with rfl | later
      · exact absurd rfl other
      · exact List.mem_cons_of_mem _ later
    · rcases List.mem_cons.mp h with rfl | later
      · exact List.mem_cons_self ..
      · exact List.mem_cons_of_mem _ (ih later)

theorem firstOnly_vote {entries : List (String × Nat)} (first : FirstOnly entries) (voted : String) :
    FirstOnly (vote voted entries) := by
  unfold FirstOnly at first ⊢
  induction entries with
  | nil => exact .nil
  | cons entry rest ih =>
    have after := List.pairwise_cons.mp first
    unfold vote
    split
    · rename_i here
      refine .cons ?_ after.2
      intro later hlater same
      exact after.1 later hlater (same.trans here.symm)
    · refine .cons ?_ (ih after.2)
      intro later hlater same
      rename_i other
      exact after.1 later (mem_of_mem_vote hlater (same ▸ other)) same

/-- The first entry of each name ends up with the ballots cast for it. -/
theorem count_spec (candidates : List String) (members : List Candidate) :
    FirstOnly (count candidates members) ∧ ∀ name, tally (count candidates members) name =
      members.countP fun member => member.protocols.find? (· ∈ candidates) = some name := by
  have counted (entries : List (String × Nat)) (listed : entries.map Prod.fst = candidates)
      (first : FirstOnly entries) : FirstOnly (members.foldl (fun votes member =>
        (member.protocols.find? (· ∈ candidates)).elim votes (vote · votes)) entries) ∧
      ∀ name, tally (members.foldl (fun votes member =>
        (member.protocols.find? (· ∈ candidates)).elim votes (vote · votes)) entries) name =
        tally entries name + members.countP fun member => member.protocols.find? (· ∈ candidates) = some name := by
    induction members generalizing entries with
    | nil => exact ⟨first, fun _ => rfl⟩
    | cons member rest ih =>
      rw [List.foldl_cons]
      cases cast : member.protocols.find? (· ∈ candidates) with
      | none =>
        obtain ⟨kept, totals⟩ := ih entries listed first
        refine ⟨kept, fun name => ?_⟩
        rw [List.countP_cons_of_neg (by simp [cast])]
        exact totals name
      | some voted =>
        have among : voted ∈ entries.map Prod.fst := by
          rw [listed]
          have found := List.find?_some cast
          exact of_decide_eq_true found
        obtain ⟨kept, totals⟩ := ih (vote voted entries) ((map_fst_vote voted entries).trans listed)
          (firstOnly_vote first voted)
        refine ⟨kept, fun name => ?_⟩
        rw [Option.elim_some]
        have total := totals name
        rw [tally_vote among] at total
        by_cases same : name = voted
        · subst same
          rw [List.countP_cons_of_pos (by simp [cast]), total, if_pos rfl]
          omega
        · rw [List.countP_cons_of_neg (by simp [cast, Ne.symm same]), total, if_neg same,
            Nat.add_zero]
  have start : FirstOnly (candidates.map fun name => (name, 0)) := by
    refine List.pairwise_map.mpr (List.pairwise_of_forall ?_)
    intro _ _ _
    rfl
  have nothing (name : String) : tally (candidates.map fun name => (name, 0)) name = 0 := by
    unfold tally
    cases found : (candidates.map fun name => (name, 0)).find? (fun entry => entry.1 = name) with
    | none => rfl
    | some entry =>
      obtain ⟨held, -, rfl⟩ := List.mem_map.mp (List.mem_of_find?_eq_some found)
      rfl
  have names : (candidates.map fun name => (name, 0)).map Prod.fst = candidates := by
    rw [List.map_map]
    exact List.map_id candidates
  have same : count candidates members = members.foldl (fun votes member =>
      (member.protocols.find? (· ∈ candidates)).elim votes (vote · votes))
        (candidates.map fun name => (name, 0)) := by
    unfold count
    congr 1
    funext votes member
    cases member.protocols.find? (· ∈ candidates) <;> rfl
  rw [same]
  obtain ⟨kept, totals⟩ := counted _ names start
  refine ⟨kept, fun name => ?_⟩
  have total := totals name
  rwa [nothing, Nat.zero_add] at total

/-- The scan stops at the first of the greatest. -/
theorem winner_split (first : String × Nat) (rest : List (String × Nat)) :
    ∃ before after, first :: rest = before ++ winner first rest :: after ∧
      (∀ entry ∈ before, entry.2 < (winner first rest).2) ∧
      ∀ entry ∈ after, entry.2 ≤ (winner first rest).2 := by
  unfold winner
  induction rest generalizing first with
  | nil => exact ⟨[], [], rfl, nofun, nofun⟩
  | cons entry rest ih =>
    rw [List.foldl_cons]
    by_cases beaten : first.2 < entry.2
    · rw [if_pos beaten]
      obtain ⟨before, after, split, below, above⟩ := ih entry
      have least : first.2 < (rest.foldl (fun best entry =>
          if best.2 < entry.2 then entry else best) entry).2 := by
        have here : entry ∈ before ++ _ :: after := split ▸ List.mem_cons_self ..
        rcases List.mem_append.mp here with earlier | later
        · exact Nat.lt_trans beaten (below entry earlier)
        · rcases List.mem_cons.mp later with same | later
          · rwa [← same]
          · exact Nat.lt_of_lt_of_le beaten (above entry later)
      refine ⟨first :: before, after, by rw [split]; rfl, ?_, above⟩
      exact List.forall_mem_cons.mpr ⟨least, below⟩
    · rw [if_neg beaten]
      obtain ⟨before, after, split, below, above⟩ := ih first
      cases before with
      | nil =>
        obtain ⟨same, rfl⟩ := List.cons.inj split
        rw [← same]
        refine ⟨[], entry :: rest, rfl, nofun, List.forall_mem_cons.mpr ⟨Nat.not_lt.mp beaten, ?_⟩⟩
        rw [same]
        exact above
      | cons head before =>
        obtain ⟨rfl, others⟩ := List.cons.inj split
        refine ⟨first :: entry :: before, after, congrArg (first :: entry :: ·) others, ?_, above⟩
        have best := below first (List.mem_cons_self ..)
        refine List.forall_mem_cons.mpr ⟨best, List.forall_mem_cons.mpr ⟨by omega, ?_⟩⟩
        exact fun other h => below other (List.mem_cons_of_mem _ h)

theorem ballot_eq (leader : Candidate) (rest : List Candidate) (member : Candidate) :
    member.protocols.find? (· ∈ common leader rest) = ballot (leader :: rest) member := by
  unfold ballot
  congr 1
  funext name
  rw [decide_eq_decide]
  exact mem_common

theorem common_eq_filter (leader : Candidate) (rest : List Candidate) :
    common leader rest = leader.protocols.filter fun name => Common (leader :: rest) name := by
  have narrowed (names : List String) : rest.foldl
      (fun names member => names.filter (· ∈ member.protocols)) names =
        names.filter fun name => Common rest name := by
    induction rest generalizing names with
    | nil => simp
    | cons member rest ih =>
      rw [List.foldl_cons, ih, List.filter_filter]
      refine List.filter_congr fun name _ => Bool.eq_iff_iff.mpr ?_
      simp only [Bool.and_eq_true, decide_eq_true_eq, common_cons, and_comm]
  unfold common
  rw [narrowed]
  refine List.filter_congr fun name listed => Bool.eq_iff_iff.mpr ?_
  simp [listed]

/-- The protocol elected has more votes than any common one the leader lists before it, and
no fewer than any other. -/
theorem elect_most {leader : Candidate} {rest : List Candidate} {elected : Elected}
    (h : elect (leader :: rest) = some elected) :
    ∃ before after, leader.protocols = before ++ elected.protocolName :: after ∧
      (∀ name ∈ before, Common (leader :: rest) name →
        votes (leader :: rest) name < votes (leader :: rest) elected.protocolName) ∧
      ∀ name, Common (leader :: rest) name →
        votes (leader :: rest) name ≤ votes (leader :: rest) elected.protocolName := by
  obtain ⟨firstOnly, totals⟩ := count_spec (common leader rest) (leader :: rest)
  have names := map_fst_count (common leader rest) (leader :: rest)
  have counted (name : String) : tally (count (common leader rest) (leader :: rest)) name =
      votes (leader :: rest) name := by
    rw [totals]
    simp only [ballot_eq, votes]
  simp only [elect] at h
  split at h
  · cases h
  rename_i first others entries
  cases h
  rw [entries] at firstOnly names counted
  obtain ⟨before, after, split, below, above⟩ := winner_split first others
  generalize winner first others = won at *
  rw [split] at firstOnly names counted
  obtain ⟨-, later, across⟩ := List.pairwise_append.mp firstOnly
  -- The entry that wins is the first of its name: a later one of the name holds nothing.
  have fresh : ∀ entry ∈ before, entry.1 ≠ won.1 := by
    intro entry hentry same
    have nothing := across entry hentry won (List.mem_cons_self ..) same.symm
    have := below entry hentry
    omega
  have mine : votes (leader :: rest) won.1 = won.2 := by
    rw [← counted]
    unfold tally
    rw [List.find?_append, List.find?_eq_none.mpr (by simpa using fresh)]
    simp
  have held (name : String) (entry : String × Nat)
      (found : (before ++ won :: after).find? (fun entry => entry.1 = name) = some entry) :
      votes (leader :: rest) name = entry.2 := by
    rw [← counted]
    unfold tally
    rw [found]
    rfl
  have entryOf (name : String) (all : Common (leader :: rest) name) : ∃ entry,
      (before ++ won :: after).find? (fun entry => entry.1 = name) = some entry := by
    have listed : name ∈ (before ++ won :: after).map Prod.fst := by
      rw [names]
      exact mem_common.mpr all
    obtain ⟨entry, hentry, rfl⟩ := List.mem_map.mp listed
    apply Option.isSome_iff_exists.mp
    exact List.find?_isSome.mpr ⟨entry, hentry, by simp⟩
  rw [common_eq_filter, List.map_append, List.map_cons] at names
  obtain ⟨low, high, whole, hlow, hhigh⟩ := List.filter_eq_append_iff.mp names.symm
  obtain ⟨skipped, tail, rfl, hskipped, -, -⟩ := List.filter_eq_cons_iff.mp hhigh
  refine ⟨low ++ skipped, tail, by rw [whole, List.append_assoc], ?_, ?_⟩
  · intro name hname all
    have earlier : name ∈ before.map Prod.fst := by
      rcases List.mem_append.mp hname with hname | hname
      · rw [← hlow]
        exact List.mem_filter.mpr ⟨hname, decide_eq_true all⟩
      · exact absurd (decide_eq_true all) (hskipped name hname)
    obtain ⟨entry, hentry, rfl⟩ := List.mem_map.mp earlier
    have some : (before.find? fun e => e.1 = entry.1).isSome :=
      List.find?_isSome.mpr ⟨entry, hentry, by simp⟩
    obtain ⟨found, hfound⟩ := Option.isSome_iff_exists.mp some
    rw [held entry.1 found (by rw [List.find?_append, hfound]; rfl), mine]
    exact below found (List.mem_of_find?_eq_some hfound)
  · intro name all
    obtain ⟨entry, found⟩ := entryOf name all
    rw [held name entry found, mine]
    rcases List.mem_append.mp (List.mem_of_find?_eq_some found) with hentry | hentry
    · exact Nat.le_of_lt (below entry hentry)
    · rcases List.mem_cons.mp hentry with rfl | hentry
      · exact Nat.le_refl _
      · exact above entry hentry

theorem idxOf_le_of_notMem {names before after : List String} {name other : String}
    (split : names = before ++ name :: after) (absent : other ∉ before) :
    names.idxOf name ≤ names.idxOf other := by
  rw [split, List.idxOf_append_of_notMem absent]
  have here : (before ++ name :: after).idxOf name ≤ before.length := by
    by_cases earlier : name ∈ before
    · rw [List.idxOf_append_of_mem earlier]
      exact List.idxOf_le_length
    · rw [List.idxOf_append_of_notMem earlier, List.idxOf_cons_self]
      exact Nat.le_refl _
  omega

theorem elect_isSome_of_subset {members fewer : List Candidate} (some : fewer ≠ [])
    (sub : fewer ⊆ members) (elected : (elect members).isSome) : (elect fewer).isSome := by
  obtain ⟨-, name, supported⟩ := elect_isSome.mp elected
  exact elect_isSome.mpr ⟨some, name, fun member h => supported member (sub h)⟩

end Election

open Election

/-- Someone is elected exactly when there is a member and a protocol that all support. The
first member leads. The protocol is one that all support, no such protocol has more votes,
and of those with as many the leader lists none before it. The order of the members does not
decide whether anyone is elected, and a part of those who can elect can still. -/
theorem election_exact (members : List Candidate) :
    ((elect members).isSome ↔ members ≠ [] ∧ ∃ name, Common members name) ∧
    (∀ elected, elect members = some elected → ∃ leader, members.head? = some leader ∧
      elected.leader = leader.memberId ∧ Common members elected.protocolName ∧
      (∀ name, Common members name → votes members name ≤ votes members elected.protocolName) ∧
      ∀ name, Common members name → votes members name = votes members elected.protocolName →
        leader.protocols.idxOf elected.protocolName ≤ leader.protocols.idxOf name) ∧
    (∀ others, others.Perm members → (elect others).isSome = (elect members).isSome) ∧
    ∀ fewer, fewer ≠ [] → fewer ⊆ members → (elect members).isSome → (elect fewer).isSome := by
  refine ⟨elect_isSome, ?_, ?_, ?_⟩
  · intro elected h
    obtain ⟨heads, supported⟩ := elect_eq_some h
    cases members with
    | nil => cases h
    | cons leader rest =>
      obtain ⟨before, after, split, less, most⟩ := elect_most h
      refine ⟨leader, rfl, (Option.some.inj heads).symm, supported, most, ?_⟩
      intro name all same
      apply idxOf_le_of_notMem split
      intro earlier
      exact absurd same (Nat.ne_of_lt (less name earlier all))
  · intro others perm
    have across {some others : List Candidate} (perm : some.Perm others)
        (elected : (elect some).isSome) : (elect others).isSome := by
      refine elect_isSome_of_subset ?_ perm.symm.subset elected
      rintro rfl
      rw [perm.eq_nil] at elected
      cases elected
    exact Bool.eq_iff_iff.mpr ⟨across perm, across perm.symm⟩
  · intro fewer some sub elected
    exact elect_isSome_of_subset some sub elected

/-- Two votes against the leader's first choice, which it lists twice. -/
def outvoted : List Candidate :=
  [⟨"a", ["range", "sticky", "range"]⟩, ⟨"b", ["sticky", "range"]⟩,
    ⟨"c", ["other", "sticky", "range"]⟩]

theorem election_exact_outvoted : elect outvoted = some ⟨"a", "sticky"⟩ ∧
    votes outvoted "range" ≤ votes outvoted "sticky" ∧ (elect (outvoted.drop 1)).isSome := by
  have elects : elect outvoted = some ⟨"a", "sticky"⟩ := by decide
  obtain ⟨leader, -, -, -, most, -⟩ := (election_exact outvoted).2.1 _ elects
  have left := (election_exact outvoted).2.2.2 (outvoted.drop 1) (by decide) (List.drop_subset ..)
  exact ⟨elects, most "range" (by decide), left (by decide)⟩

end Oqueue
