import Oqueue.Group.JoinBarriers

/-!
# What a round is closed with

Members are enrolled under distinct ids and with a protocol that all of them support, and
a withdrawal takes away neither. So a round that still has a member when it is closed
elects one: the one that stands first in the previous roster, if any does.
-/

namespace Oqueue

theorem rank_concat (previous : List String) (id : String) (member : RoundMember) :
    rank (previous ++ [id]) member =
      if id = member.memberId then (previous.length : WithTop Nat) else rank previous member := by
  unfold rank
  rw [List.zipIdx_append, List.foldl_append]
  simp

theorem rank_eq {previous : List String} (nodup : previous.Nodup) (member : RoundMember) :
    rank previous member =
      if member.memberId ∈ previous then (previous.idxOf member.memberId : WithTop Nat) else ⊤ := by
  induction previous using List.reverseRecOn with
  | nil => rfl
  | append_singleton previous id ih =>
    obtain ⟨nodup, -, apart⟩ := List.nodup_append.mp nodup
    rw [rank_concat, ih nodup]
    by_cases same : id = member.memberId
    · have absent : member.memberId ∉ previous := by
        intro present
        exact apart _ present _ (List.mem_singleton_self _) same.symm
      rw [if_pos same, if_pos (by simp [same]), List.idxOf_append_of_notMem absent]
      simp [same]
    · by_cases present : member.memberId ∈ previous
      · rw [if_neg same, if_pos present, if_pos (by simp [present]),
          List.idxOf_append_of_mem present]
      · rw [if_neg same, if_neg present, if_neg (by simp [present, Ne.symm same])]

structure RoundClose.WellFormed (close : RoundClose) (previous : List String) : Prop where
  inhabited : close.members ≠ []
  distinct : (memberIds close.members).Nodup
  leads : close.leader ∈ memberIds close.members
  first : ∀ member ∈ close.members, member.memberId ∈ previous →
    close.leader ∈ previous ∧ previous.idxOf close.leader ≤ previous.idxOf member.memberId
  supported : ∀ member ∈ close.members, close.protocolName ∈ member.names

/-- Members that an election can be held among. -/
structure Electable (members : List RoundMember) : Prop where
  distinct : (memberIds members).Nodup
  shared : members ≠ [] → ∃ name, ∀ member ∈ members, name ∈ member.names

namespace Electable

theorem elects {members : List RoundMember} (electable : Electable members)
    (inhabited : members ≠ []) : (elect (asCandidates members)).isSome := by
  obtain ⟨name, supported⟩ := electable.shared inhabited
  refine elect_isSome.mpr ⟨by simpa [asCandidates] using inhabited, name, ?_⟩
  intro candidate among
  obtain ⟨member, found, rfl⟩ := List.mem_map.mp among
  exact supported member found

theorem perm {members others : List RoundMember} (electable : Electable members)
    (perm : others.Perm members) : Electable others where
  distinct := (perm.map _).nodup_iff.mpr electable.distinct
  shared := by
    intro inhabited
    obtain ⟨name, supported⟩ := electable.shared (by rintro rfl; exact inhabited perm.eq_nil)
    exact ⟨name, fun member found => supported member (perm.mem_iff.mp found)⟩

theorem sublist {members others : List RoundMember} (electable : Electable members)
    (sub : others.Sublist members) : Electable others where
  distinct := electable.distinct.sublist (sub.map _)
  shared := by
    intro inhabited
    obtain ⟨name, supported⟩ := electable.shared (by rintro rfl; exact inhabited (List.sublist_nil.mp sub))
    exact ⟨name, fun member found => supported member (sub.subset found)⟩

theorem enrolled {members : List RoundMember} (electable : Electable members)
    {member : RoundMember}
    (elects : (elect (asCandidates (enrolled members member))).isSome) :
    Electable (enrolled members member) where
  distinct := by
    unfold Oqueue.enrolled
    split
    · have same : memberIds (members.map fun other =>
          if other.memberId = member.memberId then member else other) = memberIds members := by
        unfold memberIds
        rw [List.map_map]
        refine List.map_congr_left fun other _ => ?_
        simp only [Function.comp]
        split
        · rename_i same
          exact same.symm
        · rfl
      rw [same]
      exact electable.distinct
    · rename_i new
      unfold memberIds at new ⊢
      rw [List.map_append]
      refine List.nodup_append.mpr ⟨electable.distinct, List.nodup_singleton _, ?_⟩
      intro id found other same
      rw [List.mem_singleton.mp same]
      rintro rfl
      exact new found
  shared := by
    intro _
    obtain ⟨-, name, supported⟩ := elect_isSome.mp elects
    refine ⟨name, fun other found => ?_⟩
    exact supported ⟨other.memberId, other.names⟩ (List.mem_map_of_mem found)

end Electable

namespace Rounds

theorem members_closeOf (members : List RoundMember) (previous : List String) (generation : Int) :
    (closeOf members previous generation).members =
      members.insertionSort fun a b => rank previous a ≤ rank previous b := rfl

theorem perm_closeOf (members : List RoundMember) (previous : List String) (generation : Int) :
    (closeOf members previous generation).members.Perm members := List.perm_insertionSort ..

theorem elected_closeOf {members : List RoundMember} {previous : List String} {generation : Int}
    {elected : Elected}
    (elects : elect (asCandidates (closeOf members previous generation).members) = some elected) :
    (closeOf members previous generation).leader = elected.leader ∧
      (closeOf members previous generation).protocolName = elected.protocolName := by
  rw [members_closeOf] at elects
  unfold closeOf
  simp [elects]

/-- A round with a member left is closed well-formed, and no other is. -/
theorem closeOf_wellFormed_iff {members : List RoundMember} {previous : List String}
    (electable : Electable members) (nodup : previous.Nodup) (generation : Int) :
    (closeOf members previous generation).WellFormed previous ↔ members ≠ [] := by
  have perm := perm_closeOf members previous generation
  constructor
  · intro formed none_
    rw [none_] at perm
    exact formed.inhabited (none_ ▸ perm.eq_nil)
  intro inhabited
  have sorted : (closeOf members previous generation).members.Pairwise
      fun a b => rank previous a ≤ rank previous b := List.pairwise_insertionSort ..
  have electable := electable.perm perm
  have inhabited : (closeOf members previous generation).members ≠ [] := by
    intro none_
    rw [none_] at perm
    exact inhabited perm.symm.eq_nil
  obtain ⟨elected, elects⟩ := Option.isSome_iff_exists.mp (electable.elects inhabited)
  obtain ⟨leader, protocolName⟩ := elected_closeOf elects
  obtain ⟨heads, supported⟩ := elect_eq_some elects
  rw [← leader] at heads
  rw [← protocolName] at supported
  generalize closeOf members previous generation = close at *
  obtain ⟨first, rest, all⟩ := List.exists_cons_of_ne_nil inhabited
  have leads : close.leader = first.memberId := by
    rw [all] at heads
    exact (Option.some.inj heads).symm
  refine ⟨inhabited, electable.distinct, ?_, ?_, ?_⟩
  · rw [leads, all]
    exact List.mem_cons_self ..
  · intro member found present
    have least : rank previous first ≤ rank previous member := by
      rw [all] at found sorted
      rcases List.mem_cons.mp found with rfl | later
      · exact le_rfl
      · exact (List.pairwise_cons.mp sorted).1 member later
    rw [rank_eq nodup, rank_eq nodup, if_pos present] at least
    rw [leads]
    split at least
    · rename_i there
      exact ⟨there, by exact_mod_cast least⟩
    · exact absurd (top_le_iff.mp least) (WithTop.coe_ne_top)
  · intro member found
    exact supported ⟨member.memberId, member.names⟩ (List.mem_map_of_mem found)

/-- The open round can elect a leader as long as it has a member, and closes in the order of
the roster it inherited. -/
structure Formed (rounds : Rounds) : Prop where
  roster : (rounds.lastRoundMembers.getD []).Nodup
  electable : ∀ round, rounds.IsOpen round → Electable round.members
  inherited : ∀ round, rounds.IsOpen round → rounds.inherited round.id = rounds.lastRoundMembers

namespace Formed

variable {self : Rounds}

theorem congr {rounds : Rounds} (formed : self.Formed) (opened : rounds.openRound = self.openRound)
    (outcomes : rounds.outcomes = self.outcomes) (inherited : rounds.inherited = self.inherited)
    (roster : rounds.lastRoundMembers = self.lastRoundMembers) : rounds.Formed := by
  have same (round : OpenRound) : rounds.IsOpen round ↔ self.IsOpen round := by
    unfold IsOpen
    rw [opened, outcomes]
  constructor
  · rw [roster]
    exact formed.roster
  · exact fun round isOpen => formed.electable round ((same round).mp isOpen)
  · rw [inherited, roster]
    exact fun round isOpen => formed.inherited round ((same round).mp isOpen)

theorem installRound (formed : self.Formed) (now timeout : Nat) :
    (self.installRound now timeout).Formed where
  roster := formed.roster
  electable := by
    intro round isOpen
    cases isOpen.1
    exact ⟨.nil, by simp⟩
  inherited := by
    intro round isOpen
    cases isOpen.1
    exact Function.update_self ..

theorem based (formed : self.Formed) {record : Option GroupRecord} {now timeout : Nat}
    {base : Rounds} (based : self.Based record now timeout base) : base.Formed := by
  cases based with
  | same => exact formed
  | installed needed free =>
    have claimed : self.claimed.Formed := formed.congr rfl rfl rfl rfl
    exact (claimed.installRound now timeout).congr rfl rfl rfl rfl

theorem setMembers (formed : self.Formed) {round : OpenRound}
    (opened : self.openRound = some round) (members : List RoundMember)
    (awaiting : Option (List String)) (electable : Electable round.members → Electable members) :
    ({ self with openRound := some { round with members, awaiting } } : Rounds).Formed where
  roster := formed.roster
  electable := by
    intro other isOpen
    obtain ⟨there, unset⟩ := isOpen
    cases there
    exact electable (formed.electable round ⟨opened, unset⟩)
  inherited := by
    intro other isOpen
    obtain ⟨there, unset⟩ := isOpen
    cases there
    exact formed.inherited round ⟨opened, unset⟩

theorem joinedBy (formed : self.Formed) {round : OpenRound} {member : RoundMember}
    (opened : self.openRound = some round)
    (elects : (elect (asCandidates (enrolled round.members member))).isSome) :
    (self.joinedBy round member).Formed :=
  formed.setMembers opened _ _ fun electable => electable.enrolled elects

theorem withdraw (formed : self.Formed) (memberId : String) (own : Nat) :
    (self.withdraw memberId own).Formed := by
  unfold Rounds.withdraw
  split
  · exact formed
  · rename_i round opened
    split
    · exact formed.setMembers opened _ _ fun electable => electable.sublist List.filter_sublist
    · exact formed

theorem setAwaiting (formed : self.Formed) (awaiting : List String) :
    (self.setAwaiting awaiting).Formed := by
  unfold Rounds.setAwaiting
  cases opened : self.openRound with
  | none => exact formed.congr opened.symm rfl rfl rfl
  | some round => exact formed.setMembers opened _ _ id

theorem settled {rounds : Rounds} (nobody : rounds.current = none)
    (roster : (rounds.lastRoundMembers.getD []).Nodup) : rounds.Formed where
  roster := roster
  electable := fun _ isOpen => by cases nobody.symm.trans isOpen.current
  inherited := fun _ isOpen => by cases nobody.symm.trans isOpen.current

theorem finalizeClose (formed : self.Formed) {round : OpenRound} (isOpen : self.IsOpen round)
    (generation : Int) : (self.finalizeClose generation).1.Formed := by
  have roster : (self.finalizeClose generation).1.lastRoundMembers = some (memberIds
      (closeOf round.members (self.lastRoundMembers.getD []) generation).members) := by
    simp [Rounds.finalizeClose, isOpen.1, isOpen.2, setOutcome]
  refine settled (current_finalizeClose isOpen generation) ?_
  rw [roster]
  exact ((formed.electable round isOpen).perm (perm_closeOf ..)).distinct

theorem abandonRound (formed : self.Formed) (forgetRoster : Bool) :
    (self.abandonRound forgetRoster).Formed := by
  unfold Rounds.abandonRound
  cases opened : self.openRound with
  | none => exact formed
  | some round =>
    cases forgetRoster with
    | true => exact settled (by simp [current]) .nil
    | false =>
      refine settled (by simp [current]) ?_
      simpa using formed.roster

end Formed

end Rounds

namespace JoinGroup

theorem Moves.formed {self : World} {id : Nat} {handler : Handler} {effect : Effect}
    (moved : Moves self id handler effect) (formed : self.rounds.Formed) :
    effect.rounds.Formed := by
  cases moved with
  | walks => exact formed
  | refuses at_ free planned =>
    rcases planned with planned | ⟨unclaimed, rfl⟩
    · exact formed.based planned
    · exact formed.congr rfl rfl rfl rfl
  | opens => exact formed.congr rfl rfl rfl rfl
  | enrols at_ free planned opened electable => exact (formed.based planned).joinedBy opened electable
  | fills at_ free planned opened unclaimed electable full =>
    exact ((formed.based planned).joinedBy opened electable).congr rfl rfl rfl rfl
  | installs => exact formed.installRound _ _
  | leaves => exact formed.congr rfl rfl rfl rfl
  | publishes at_ free isOpen => exact formed.finalizeClose isOpen _
  | stale => exact formed
  | abandons => exact formed.abandonRound _
  | locks => exact formed
  | rosterDead => exact formed.setAwaiting _
  | rechecks => exact formed.setAwaiting _
  | claims => exact formed.congr rfl rfl rfl rfl
  | withdraws => exact formed.withdraw _ _
  | registers => exact formed

/-- What a round inherited is written when it is installed. -/
theorem Moves.inherited {self : World} {id : Nat} {handler : Handler} {effect : Effect}
    (moved : Moves self id handler effect) {r : Nat} (below : r < self.rounds.installed) :
    effect.rounds.inherited r = self.rounds.inherited r := by
  have installs (now timeout : Nat) :
      (self.rounds.installRound now timeout).inherited r = self.rounds.inherited r :=
    Function.update_of_ne below.ne ..
  have based {now timeout : Nat} {record : Option GroupRecord} {base : Rounds}
      (based : self.rounds.Based record now timeout base) :
      base.inherited r = self.rounds.inherited r := by
    cases based with
    | same => rfl
    | installed needed free => exact installs now timeout
  cases moved with
  | refuses at_ free planned =>
    rcases planned with planned | ⟨unclaimed, rfl⟩
    · exact based planned
    · rfl
  | enrols at_ free planned =>
    have same := based planned
    exact same
  | fills at_ free planned =>
    have same := based planned
    exact same
  | installs => exact installs _ _
  | publishes at_ free isOpen =>
    simp [Rounds.finalizeClose, isOpen.1, isOpen.2, Rounds.setOutcome]
  | abandons =>
    rename_i forgetRoster _ _
    simp only [Rounds.abandonRound]
    split
    · rfl
    · cases forgetRoster <;> simp
  | withdraws =>
    simp only [Rounds.withdraw]
    split
    · rfl
    · split <;> rfl
  | _ => rfl

theorem Stepped.formed {self next : World} {action : Action} (stepped : Stepped self action next)
    (formed : self.rounds.Formed) : next.rounds.Formed := by
  cases stepped with
  | moves found moved => exact moved.formed formed
  | dropsHolder => exact formed.congr rfl rfl rfl rfl
  | _ => exact formed

theorem Stepped.inherited {self next : World} {action : Action} (stepped : Stepped self action next) {r : Nat}
    (below : r < self.rounds.installed) : next.rounds.inherited r = self.rounds.inherited r := by
  cases stepped with
  | moves found moved => exact moved.inherited below
  | _ => rfl

namespace World

variable {self next : World} {action : Action}

def Publishes (self next : World) (r : Nat) (close : RoundClose) : Prop :=
  self.rounds.outcomes r = none ∧ next.rounds.outcomes r = some (some close)

theorem Sound.closes (sound : self.Sound) (h : self.step action = some next)
    {r : Nat} {close : RoundClose} (publishes : self.Publishes next r close) :
    ∃ id handler purpose record round, self.handlers id = some handler ∧
      handler.place = .closing purpose (some (.ok record)) ∧ purpose.round = r ∧
      self.rounds.IsOpen round ∧ round.id = r ∧ self.lock = none ∧
      close = Rounds.closeOf round.members (self.rounds.lastRoundMembers.getD [])
        record.generation := by
  obtain ⟨unset, published⟩ := publishes
  cases step_stepped h with
  | moves found moved =>
    rcases moved.heard_of_publishes (sound.slot.suits _ _ found) published with before |
      ⟨purpose, record, round, at_, here, isOpen, same, free, closed⟩
    · cases unset.symm.trans before
    · exact ⟨_, _, purpose, record, round, found, at_, here, isOpen, same, free, closed⟩
  | _ => cases unset.symm.trans published

theorem published_step {actions : List Action} {world : World}
    (ran : Steps.run World.step {} actions = some world) {r : Nat} {close : RoundClose}
    (published : world.rounds.outcomes r = some (some close)) :
    ∃ before action after mid next, actions = before ++ action :: after ∧
      Steps.run World.step {} before = some mid ∧ mid.step action = some next ∧
      Steps.run World.step next after = some world ∧ mid.Publishes next r close := by
  have first : ¬ (({} : World).rounds.outcomes r = some (some close)) := by simp
  obtain ⟨before, action, after, mid, next, rfl, ran_mid, stepped, ran_next, unset, set_⟩ :=
    Steps.run_turns (P := fun world : World => world.rounds.outcomes r = some (some close))
      ran first published
  refine ⟨before, action, after, mid, next, rfl, ran_mid, stepped, ran_next, ?_, set_⟩
  have sound := Sound.init.run ran_mid
  rcases Option.eq_none_or_eq_some (mid.rounds.outcomes r) with none_ | ⟨outcome, some_⟩
  · exact none_
  · have kept := Stepped.outcome sound.slot (step_stepped stepped) some_
    cases kept.symm.trans set_
    exact absurd some_ unset

theorem formed_run {actions : List Action} (formed : self.rounds.Formed)
    (ran : Steps.run World.step self actions = some next) : next.rounds.Formed :=
  Steps.run_invariant (fun world : World => world.rounds.Formed)
    (fun _ _ _ formed stepped => (step_stepped stepped).formed formed) formed ran

theorem formed_init : ({} : World).rounds.Formed := ⟨.nil, nofun, nofun⟩

theorem Sound.inherited_run (sound : self.Sound) {actions : List Action}
    (ran : Steps.run World.step self actions = some next) {r : Nat}
    (settled : (self.rounds.outcomes r).isSome) :
    next.rounds.inherited r = self.rounds.inherited r := by
  have kept := Steps.run_invariant (fun world : World => world.Sound ∧
      (world.rounds.outcomes r).isSome ∧ world.rounds.inherited r = self.rounds.inherited r) ?_
    ⟨sound, settled, rfl⟩ ran
  · exact kept.2.2
  · intro world action after before stepped
    obtain ⟨sound, settled, same⟩ := before
    have stepped' := step_stepped stepped
    refine ⟨sound.step stepped, ?_, ?_⟩
    · obtain ⟨outcome, set_⟩ := Option.isSome_iff_exists.mp settled
      rw [Stepped.outcome sound.slot stepped' set_]
      rfl
    · rw [← same]
      exact stepped'.inherited (sound.slot.numbered.settled_lt r settled)

/-- Every round that was closed was closed well-formed. -/
def PublishedWellFormed (self : World) : Prop := ∀ r close,
  self.rounds.outcomes r = some (some close) →
    close.WellFormed ((self.rounds.inherited r).getD [])

/-- Every step that closes a round finds a member enrolled in it. -/
def FindsMembers (actions : List Action) : Prop := ∀ before action after mid next,
  actions = before ++ action :: after → Steps.run World.step {} before = some mid →
  mid.step action = some next → ∀ r close, mid.Publishes next r close →
    ∃ round, mid.rounds.openRound = some round ∧ round.members ≠ []

theorem published_wellFormed_iff {actions : List Action} {world : World}
    (ran : Steps.run World.step {} actions = some world) :
    world.PublishedWellFormed ↔ FindsMembers actions := by
  have each {before after : List Action} {action : Action} {mid next : World} {r : Nat}
      {close : RoundClose} (ran_mid : Steps.run World.step {} before = some mid)
      (stepped : mid.step action = some next)
      (ran_next : Steps.run World.step next after = some world)
      (publishes : mid.Publishes next r close) :
      close.WellFormed ((world.rounds.inherited r).getD []) ↔
        ∃ round, mid.rounds.openRound = some round ∧ round.members ≠ [] := by
    have sound := Sound.init.run ran_mid
    have formed := formed_run formed_init ran_mid
    obtain ⟨_, _, _, _, round, -, -, -, isOpen, rfl, -, rfl⟩ := sound.closes stepped publishes
    have settled : (next.rounds.outcomes round.id).isSome := by
      rw [publishes.2]
      rfl
    have inherited : world.rounds.inherited round.id = mid.rounds.lastRoundMembers := by
      rw [(sound.step stepped).inherited_run ran_next settled,
        (step_stepped stepped).inherited (sound.slot.numbered.current_lt _ isOpen.current)]
      exact formed.inherited round isOpen
    rw [inherited, Rounds.closeOf_wellFormed_iff (formed.electable round isOpen) formed.roster]
    simp [isOpen.1]
  constructor
  · intro wellFormed before action after mid next split_ ran_mid stepped r close publishes
    have ran_next : Steps.run World.step next after = some world := by
      rw [split_, Steps.run_append, ran_mid, Option.bind_some] at ran
      obtain ⟨next', stepped', ran⟩ := Steps.run_cons.mp ran
      cases stepped.symm.trans stepped'
      exact ran
    refine (each ran_mid stepped ran_next publishes).mp (wellFormed r close ?_)
    exact ((Sound.init.run ran_mid).step stepped).outcome_run ran_next publishes.2
  · intro found r close published
    obtain ⟨before, action, after, mid, next, rfl, ran_mid, stepped, ran_next, publishes⟩ :=
      published_step ran published
    exact (each ran_mid stepped ran_next publishes).mpr
      (found before action after mid next rfl ran_mid stepped r close publishes)

theorem published_wellFormed_iff_twoJoin : FindsMembers twoJoin := by
  have closed : (Steps.run World.step {} twoJoin).map (fun world : World =>
      (world.rounds.installed, world.rounds.outcomes 0, world.rounds.inherited 0)) = some (1,
        some (some ⟨1, "member-0", "consumer", "range",
          [⟨"member-0", "consumer", [("range", [])], 1000⟩,
            ⟨"member-1", "consumer", [("range", [])], 1000⟩]⟩), none) := by decide +kernel
  obtain ⟨world, ran, closed⟩ := Option.map_eq_some_iff.mp closed
  obtain ⟨installed, outcome, inherited⟩ : _ ∧ _ ∧ _ := by simpa only [Prod.mk.injEq] using closed
  refine (published_wellFormed_iff ran).mp fun r close published => ?_
  have below := (Sound.init.run ran).slot.numbered.settled_lt r (by rw [published]; rfl)
  obtain rfl : r = 0 := by omega
  rw [outcome] at published
  cases published
  rw [inherited]
  exact ⟨by decide, by decide, by decide, by decide, by decide⟩

/-- A member rejoins twice. The first handler fills the round and waits for its barrier; the
second gives up waiting and withdraws the member. -/
def rejoinedTwice : List Action :=
  let join (id : Nat) (memberId : Option String) : Action :=
    .arrive id memberId "consumer" [("range", [])] 1000 30000 false
  [join 0 none, .advance 0, .serve true] ++ List.replicate 6 (.advance 0) ++
  [.tick 1000, .advance 0, .advance 0, .serve true, .advance 0, .serve true, .advance 0,
    .advance 0, .advance 0, join 1 (some "member-0"), join 2 (some "member-0"), .advance 1,
    .serve true, .advance 1, .advance 1, .advance 1] ++ List.replicate 5 (.advance 2) ++
  [.tick 6000] ++ List.replicate 4 (.advance 2) ++ [.tick 11000] ++
    List.replicate 6 (.advance 2) ++ [.tick 16000] ++ List.replicate 4 (.advance 2) ++
  [.tick 21000, .advance 2, .advance 2, .advance 2, .serve true, .advance 1]

/-- The round is then closed without a member, a leader or a protocol. -/
theorem published_empty : ∃ world, Steps.run World.step {} rejoinedTwice = some world ∧
    ¬ world.PublishedWellFormed := by
  have closed : (Steps.run World.step {} rejoinedTwice).map (·.rounds.outcomes 1) =
      some (some (some ⟨2, "", "", "", []⟩)) := by decide +kernel
  obtain ⟨world, ran, closed⟩ := Option.map_eq_some_iff.mp closed
  exact ⟨world, ran, fun wellFormed => (wellFormed 1 _ closed).inhabited rfl⟩

end World

end JoinGroup

end Oqueue
