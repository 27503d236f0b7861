import Oqueue.Group.JoinFormed

/-!
# Who is told of a round

A handler is enrolled in at most one round, and whoever is listed when that round closes is
the member of such a handler. Two steps break this: the append of the roster is refused to a
joiner that closed the round itself, which is then told that the coordinator is unavailable;
and a round is closed after a handler found it open for the last time and before it withdraws
from it, which is then told to rejoin.
-/

namespace Oqueue

namespace JoinGroup

/-- Every round the handler was enrolled in so far was abandoned. -/
def Abandoned (rounds : Rounds) (enrolled : Option Nat) : Prop :=
  ∀ r, enrolled = some r → rounds.outcomes r = some none

def Published (rounds : Rounds) (enrolled : Option Nat) (close : RoundClose) : Prop :=
  ∃ r, enrolled = some r ∧ rounds.outcomes r = some (some close)

/-- Where a handler stands goes with the round it is enrolled in. -/
def Place.Fits (rounds : Rounds) (enrolled : Option Nat) : Place → Prop
  | .planning _ _ | .slotWaiting _ _ _ | .opening _ _ _ _ | .opened _ _ _
  | .answered (.refused _) => Abandoned rounds enrolled
  | .closing purpose _ | .persisting purpose _ _ | .abandoned purpose =>
    enrolled = some purpose.round
  | .looking wait | .repruning wait | .pruning wait _ _ | .claiming wait _ _ _
  | .claimWaiting wait _ _ _ _ | .checking wait _ | .parked wait _ | .lapsed wait
  | .withdrawing wait => enrolled = some wait.round
  | .registering close | .answered (.success close) => Published rounds enrolled close
  | .dropped => True

/-- The two steps after which a handler is answered an error although its round was closed. -/
def Slips (world : World) (action : Action) : Prop :=
  (action = .serve false ∧ ∃ roster id queue handler left waitingUntil round close,
    world.queue = .roster roster id :: queue ∧ world.handlers id = some handler ∧
    handler.place = .persisting (.joining left waitingUntil round) close none) ∨
  ∃ id handler purpose record other giving wait, action = .advance id ∧
    world.handlers id = some handler ∧ handler.place = .closing purpose (some (.ok record)) ∧
    world.handlers other = some giving ∧ giving.place = .withdrawing wait ∧
    wait.round = purpose.round

/-- Where a handler stands as long as neither of them happens. -/
def Place.Careful (rounds : Rounds) : Place → Prop
  | .persisting (.joining _ _ _) _ (some kept) => kept = true
  | .withdrawing wait => ∀ close, rounds.outcomes wait.round ≠ some (some close)
  | _ => True

theorem Place.Fits.turn {place : Place} {rounds later : Rounds} {enrolled : Option Nat}
    (fits : place.Fits rounds enrolled) (kept : ∀ r outcome, rounds.outcomes r = some outcome →
      later.outcomes r = some outcome) : place.Fits later enrolled := by
  have abandoned (h : Abandoned rounds enrolled) : Abandoned later enrolled :=
    fun r same => kept r none (h r same)
  have published {close : RoundClose} (h : Published rounds enrolled close) :
      Published later enrolled close := by
    obtain ⟨r, same, published⟩ := h
    exact ⟨r, same, kept r _ published⟩
  cases place with
  | planning => exact abandoned fits
  | slotWaiting => exact abandoned fits
  | opening => exact abandoned fits
  | opened => exact abandoned fits
  | registering => exact published fits
  | answered answer =>
    cases answer with
    | success close => exact published fits
    | refused errorCode => exact abandoned fits
  | _ => exact fits

theorem replanned_fits {rounds : Rounds} {enrolled : Option Nat} {waitingUntil left : Nat} :
    (Place.replanned waitingUntil left).Fits rounds enrolled ↔ Abandoned rounds enrolled := by
  cases left <;> rfl

theorem tried_fits {rounds : Rounds} {enrolled : Option Nat} {wait : Wait} {early : Bool} :
    (Place.tried wait early).Fits rounds enrolled ↔ enrolled = some wait.round := by
  cases early <;> rfl

theorem told_fits {rounds : Rounds} {r : Nat} {outcome : Option RoundClose}
    (set_ : rounds.outcomes r = some outcome) : (Place.told outcome).Fits rounds (some r) := by
  cases outcome with
  | some close => exact ⟨r, rfl, set_⟩
  | none =>
    intro other same
    cases same
    exact set_

theorem heard_fits {answer : Except Error GroupRecord} {place : Place} {rounds : Rounds}
    {enrolled : Option Nat} :
    (place.heard answer).Fits rounds enrolled ↔ place.Fits rounds enrolled := by
  unfold Place.heard
  split <;> rfl

theorem stored_fits {lands : Bool} {place : Place} {rounds : Rounds} {enrolled : Option Nat} :
    (place.stored lands).Fits rounds enrolled ↔ place.Fits rounds enrolled := by
  unfold Place.stored
  split <;> rfl

theorem Walk.fits {self : World} {place place' : Place} (walk : Walk self place place')
    {enrolled : Option Nat} (fits : place.Fits self.rounds enrolled) :
    place'.Fits self.rounds enrolled := by
  cases walk with
  | replans => exact replanned_fits.mpr fits
  | hears set_ | checkHears set_ | lapseHears set_ =>
    cases (show enrolled = _ from fits)
    exact told_fits set_
  | notMine | givesUp => exact tried_fits.mpr fits
  | _ => exact fits

theorem replanned_careful (rounds : Rounds) (waitingUntil left : Nat) :
    (Place.replanned waitingUntil left).Careful rounds := by
  cases left <;> trivial

theorem tried_careful (rounds : Rounds) (wait : Wait) (early : Bool) :
    (Place.tried wait early).Careful rounds := by
  cases early <;> trivial

theorem Walk.careful {self : World} {place place' : Place} (walk : Walk self place place') :
    place'.Careful self.rounds := by
  cases walk with
  | replans => exact replanned_careful ..
  | hears | checkHears | lapseHears =>
    rename_i outcome _
    cases outcome <;> trivial
  | notMine => exact tried_careful ..
  | givesUp => exact tried_careful ..
  | lapses unset =>
    intro close published
    cases unset.symm.trans published
  | _ => trivial

theorem heard_careful {answer : Except Error GroupRecord} {place : Place} {rounds : Rounds} :
    (place.heard answer).Careful rounds ↔ place.Careful rounds := by
  unfold Place.heard
  split <;> rfl

namespace Moves

variable {self : World} {id : Nat} {handler : Handler} {effect : Effect}

theorem fits (moved : Moves self id handler effect) (sound : self.SlotSound)
    (suits : handler.place.Suits self.rounds)
    (fits : handler.place.Fits self.rounds handler.enrolled)
    (careful : handler.place.Careful self.rounds) :
    effect.place.Fits effect.rounds effect.enrolled := by
  have kept {r : Nat} {outcome : Option RoundClose}
      (set_ : self.rounds.outcomes r = some outcome) : effect.rounds.outcomes r = some outcome :=
    (moved.turns suits sound.numbered).outcome set_
  cases moved with
  | walks walk => exact walk.fits fits
  | refuses at_ =>
    rw [at_] at fits
    exact fun r same => kept (fits r same)
  | opens at_ =>
    rw [at_] at fits
    exact fun r same => kept (fits r same)
  | enrols => rfl
  | fills => rfl
  | installs at_ =>
    rw [at_] at fits
    exact fun r same => kept (fits r same)
  | leaves leaving free =>
    rename_i place
    generalize handler.place = before at leaving fits suits careful
    simp only [World.still]
    cases leaving with
    | opened => exact replanned_fits.mpr fits
    | openFailed => exact fits
    | persisted => exact ⟨_, fits, suits⟩
    | lost => cases careful
    | persistTried => exact tried_fits.mpr fits
    | abandoned =>
      refine replanned_fits.mpr fun r same => ?_
      cases same.symm.trans fits
      exact suits
    | abandonTried => exact tried_fits.mpr fits
  | publishes at_ => rwa [at_] at fits
  | stale at_ needed =>
    rw [at_] at suits
    rw [← Rounds.current_eq_none] at needed
    cases needed.symm.trans suits
  | abandons at_ => rwa [at_] at fits
  | locks at_ => rwa [at_] at fits
  | rosterDead at_ => rwa [at_] at fits
  | rechecks at_ => rwa [at_] at fits
  | claims at_ => rwa [at_] at fits
  | withdraws at_ =>
    rename_i wait _
    rw [at_] at fits
    intro r same
    dsimp only at same
    split at same
    · cases same
    · rename_i settled
      cases same.symm.trans fits
      rw [Option.isNone_iff_eq_none] at settled
      obtain ⟨outcome, set_⟩ := Option.ne_none_iff_exists'.mp settled
      cases outcome with
      | none => exact kept set_
      | some close =>
        rw [at_] at careful
        exact absurd set_ (careful close)
  | registers at_ => rwa [at_] at fits

/-- A handler starts to withdraw from rounds that it has just found open. -/
theorem careful (moved : Moves self id handler effect) (suits : handler.place.Suits self.rounds) :
    effect.place.Careful effect.rounds := by
  cases moved with
  | walks walk => exact walk.careful
  | leaves leaving =>
    generalize handler.place = before at leaving suits
    simp only [World.still]
    cases leaving with
    | opened => exact replanned_careful ..
    | abandoned => exact replanned_careful ..
    | persistTried => exact tried_careful ..
    | abandonTried => exact tried_careful ..
    | _ => trivial
  | publishes =>
    rename_i purpose _ _ _ _ _
    cases purpose <;> trivial
  | stale at_ needed =>
    rw [at_] at suits
    rw [← Rounds.current_eq_none] at needed
    cases needed.symm.trans suits
  | _ => trivial

end Moves

theorem mem_enrolled {members : List RoundMember} {member other : RoundMember} :
    other ∈ enrolled members member ↔
      other = member ∨ other ∈ members ∧ other.memberId ≠ member.memberId := by
  unfold enrolled
  split
  · rename_i there
    rw [List.mem_map]
    constructor
    · intro found
      obtain ⟨before, among, rfl⟩ := found
      split
      · exact .inl rfl
      · rename_i differ
        exact .inr ⟨among, differ⟩
    · intro found
      rcases found with rfl | ⟨among, differ⟩
      · obtain ⟨before, among, same⟩ := List.mem_map.mp there
        exact ⟨before, among, if_pos same⟩
      · exact ⟨other, among, if_neg differ⟩
  · rename_i new
    rw [List.mem_append, List.mem_singleton]
    constructor
    · intro found
      rcases found with among | same
      · refine .inr ⟨among, fun same => new ?_⟩
        rw [← same]
        exact List.mem_map_of_mem among
      · exact .inl same
    · intro found
      rcases found with same | ⟨among, -⟩
      · exact .inr same
      · exact .inl among

def Handler.IsLive (self : Handler) : Prop :=
  self.place ≠ .dropped ∧ ∀ answer, self.place ≠ .answered answer

namespace World

variable {self next : World} {action : Action} {id : Nat} {handler : Handler} {effect : Effect}

/-- The members of a round are those of the handlers enrolled in it, the dropped ones aside. -/
structure Lists (world : World) (r : Nat) (members : List RoundMember) : Prop where
  present : ∀ id handler, world.handlers id = some handler → handler.place ≠ .dropped →
    handler.enrolled = some r → handler.member ∈ members
  handled : ∀ member ∈ members, ∃ id handler, world.handlers id = some handler ∧
    handler.member = member ∧ handler.enrolled = some r

structure RosterSound (world : World) : Prop where
  installed : ∀ id handler r, world.handlers id = some handler → handler.enrolled = some r →
    r < world.rounds.installed
  enrolled : ∀ round, world.rounds.IsOpen round → world.Lists round.id round.members
  listed : ∀ r close, world.rounds.outcomes r = some (some close) → world.Lists r close.members

/-- Every handler stays the same member's, and enrolled where it was; a dropped one stays
dropped. -/
structure Keeps (world next : World) : Prop where
  before : ∀ id after, next.handlers id = some after → after.enrolled = none ∨
    ∃ handler, world.handlers id = some handler ∧ handler.member = after.member ∧
      handler.enrolled = after.enrolled ∧ (handler.place = .dropped → after.place = .dropped)
  after : ∀ id handler, world.handlers id = some handler → ∃ after,
    next.handlers id = some after ∧ after.member = handler.member ∧
      after.enrolled = handler.enrolled

theorem Lists.keeps {r : Nat} {members : List RoundMember} (lists : self.Lists r members)
    (keeps : self.Keeps next) : next.Lists r members where
  present := by
    intro id after found living enrolled
    rcases keeps.before id after found with none_ | ⟨handler, before, member, same, dropped⟩
    · cases none_.symm.trans enrolled
    · rw [← member]
      exact lists.present id handler before (fun gone => living (dropped gone))
        (same.trans enrolled)
  handled := by
    intro member among
    obtain ⟨id, handler, found, same, enrolled⟩ := lists.handled member among
    obtain ⟨after, found', member', enrolled'⟩ := keeps.after id handler found
    exact ⟨id, after, found', member'.trans same, enrolled'.trans enrolled⟩

theorem Lists.perm {r : Nat} {members others : List RoundMember} (lists : self.Lists r members)
    (perm : others.Perm members) : self.Lists r others where
  present := fun id handler found living enrolled =>
    perm.mem_iff.mpr (lists.present id handler found living enrolled)
  handled := fun member among => lists.handled member (perm.mem_iff.mp among)

theorem lists_nil (roster : self.RosterSound) {r : Nat} (new : self.rounds.installed ≤ r) :
    self.Lists r [] where
  present := by
    intro id handler found living enrolled
    have := roster.installed id handler r found enrolled
    omega
  handled := nofun

theorem openRound_setAwaiting (awaiting : List String) (round : OpenRound)
    (isOpen : (self.rounds.setAwaiting awaiting).IsOpen round) :
    (∃ before, self.rounds.IsOpen before ∧ before.id = round.id ∧
      before.members = round.members) ∨ (self.rounds.installed ≤ round.id ∧ round.members = []) := by
  obtain ⟨before, opened, rfl⟩ := Option.map_eq_some_iff.mp isOpen.1
  exact .inl ⟨before, ⟨opened, isOpen.2⟩, rfl, rfl⟩

namespace RosterSound

theorem keeps (roster : self.RosterSound) (keeps : self.Keeps next)
    (opened : ∀ round, next.rounds.IsOpen round →
      (∃ before, self.rounds.IsOpen before ∧ before.id = round.id ∧
        before.members = round.members) ∨
      (self.rounds.installed ≤ round.id ∧ round.members = []))
    (published : ∀ r close, next.rounds.outcomes r = some (some close) →
      self.rounds.outcomes r = some (some close))
    (installed : self.rounds.installed ≤ next.rounds.installed) : next.RosterSound where
  installed := by
    intro id after r found enrolled
    rcases keeps.before id after found with none_ | ⟨handler, before, -, same, -⟩
    · cases none_.symm.trans enrolled
    · have := roster.installed id handler r before (same.trans enrolled)
      omega
  enrolled := by
    intro round isOpen
    rcases opened round isOpen with ⟨before, isOpen', same, members⟩ | ⟨new, none_⟩
    · rw [← same, ← members]
      exact (roster.enrolled before isOpen').keeps keeps
    · rw [none_]
      exact (lists_nil roster new).keeps keeps
  listed := fun r close set_ => (roster.listed r close (published r close set_)).keeps keeps

end RosterSound

theorem Keeps.hearing {replyTo : Option Nat} {change : Place → Place}
    (handlers : next.handlers = JoinGroup.hearing self.handlers replyTo change)
    (dropped : change .dropped = .dropped) : self.Keeps next where
  before := by
    intro id after found
    rw [handlers] at found
    obtain ⟨handler, before, rfl⟩ := Option.map_eq_some_iff.mp found
    right
    split
    · exact ⟨handler, before, rfl, rfl, fun gone => by simp only [gone, dropped]⟩
    · exact ⟨handler, before, rfl, rfl, fun gone => gone⟩
  after := by
    intro id handler found
    rw [handlers]
    by_cases told : replyTo = some id
    · exact ⟨{ handler with place := change handler.place },
        by simp [JoinGroup.hearing, found, told], rfl, rfl⟩
    · exact ⟨handler, by simp [JoinGroup.hearing, found, told], rfl, rfl⟩

theorem Keeps.of_after (found : self.handlers id = some handler)
    (living : handler.place ≠ .dropped) (enrolled : effect.enrolled = handler.enrolled) :
    self.Keeps (self.after id handler effect) where
  before := by
    intro other after found'
    right
    by_cases same : other = id
    · subst same
      cases handlers_after_self.symm.trans found'
      exact ⟨handler, found, rfl, enrolled.symm, fun gone => absurd gone living⟩
    · rw [handlers_after_of_ne same] at found'
      exact ⟨after, found', rfl, rfl, fun gone => gone⟩
  after := by
    intro other handler' found'
    by_cases same : other = id
    · subst same
      cases found.symm.trans found'
      exact ⟨_, handlers_after_self, rfl, enrolled⟩
    · exact ⟨handler', (handlers_after_of_ne same).trans found', rfl, rfl⟩

def OneLive (self : World) : Prop := ∀ a b first second, self.handlers a = some first →
  self.handlers b = some second → first.IsLive → second.IsLive →
  first.member.memberId = second.member.memberId → a = b

structure AnswersSound (world : World) : Prop where
  roster : world.RosterSound
  fits : ∀ id handler, world.handlers id = some handler →
    handler.place.Fits world.rounds handler.enrolled
  careful : ∀ id handler, world.handlers id = some handler → handler.place.Careful world.rounds

namespace AnswersSound

theorem live (answers : self.AnswersSound) (found : self.handlers id = some handler)
    (living : handler.place ≠ .dropped) {r : Nat} (enrolled : handler.enrolled = some r)
    (unset : self.rounds.outcomes r = none) : handler.IsLive := by
  refine ⟨living, fun answer at_ => ?_⟩
  have fits := answers.fits id handler found
  rw [at_] at fits
  cases answer with
  | success close =>
    obtain ⟨other, same, published⟩ := fits
    cases enrolled.symm.trans same
    cases unset.symm.trans published
  | refused errorCode => cases unset.symm.trans (fits r enrolled)

/-- A member that enrols takes the place of no other handler that still waits. -/
theorem enrols (answers : self.AnswersSound) (alone : self.OneLive)
    (found : self.handlers id = some handler) (live : handler.IsLive) {round : OpenRound}
    (lists : self.Lists round.id round.members) (unset : self.rounds.outcomes round.id = none)
    (enrolled : effect.enrolled = some round.id) :
    (self.after id handler effect).Lists round.id
      (Oqueue.enrolled round.members handler.member) where
  present := by
    intro other handler' found' living same
    by_cases eq : other = id
    · subst eq
      cases handlers_after_self.symm.trans found'
      exact mem_enrolled.mpr (.inl rfl)
    · rw [handlers_after_of_ne eq] at found'
      refine mem_enrolled.mpr (.inr ⟨lists.present other handler' found' living same, ?_⟩)
      intro sameId
      exact eq (alone other id handler' handler found' found
        (answers.live found' living same unset) live sameId)
  handled := by
    intro member among
    rcases mem_enrolled.mp among with rfl | ⟨among, -⟩
    · exact ⟨id, _, handlers_after_self, rfl, enrolled⟩
    · obtain ⟨other, handler', found', same, in_⟩ := lists.handled member among
      by_cases eq : other = id
      · subst eq
        cases found.symm.trans found'
        exact ⟨_, _, handlers_after_self, same, enrolled⟩
      · exact ⟨other, handler', (handlers_after_of_ne eq).trans found', same, in_⟩

/-- A member that withdraws takes no other handler with it that still waits. -/
theorem withdraws (answers : self.AnswersSound) (alone : self.OneLive)
    (found : self.handlers id = some handler) (live : handler.IsLive) {r : Nat}
    {members : List RoundMember} (lists : self.Lists r members)
    (unset : self.rounds.outcomes r = none) (gone : effect.enrolled = none) :
    (self.after id handler effect).Lists r
      (members.filter (·.memberId ≠ handler.member.memberId)) where
  present := by
    intro other handler' found' living same
    by_cases eq : other = id
    · subst eq
      cases handlers_after_self.symm.trans found'
      cases gone.symm.trans same
    · rw [handlers_after_of_ne eq] at found'
      refine List.mem_filter.mpr ⟨lists.present other handler' found' living same, ?_⟩
      refine decide_eq_true fun sameId => eq ?_
      exact alone other id handler' handler found' found
        (answers.live found' living same unset) live sameId
  handled := by
    intro member among
    obtain ⟨among, differs⟩ := List.mem_filter.mp among
    obtain ⟨other, handler', found', same, in_⟩ := lists.handled member among
    have eq : other ≠ id := by
      rintro rfl
      cases found.symm.trans found'
      exact of_decide_eq_true differs (same ▸ rfl)
    exact ⟨other, handler', (handlers_after_of_ne eq).trans found', same, in_⟩

theorem elsewhere {r : Nat} {members : List RoundMember} (lists : self.Lists r members)
    (found : self.handlers id = some handler) (left : handler.enrolled ≠ some r)
    (entered : effect.enrolled ≠ some r) : (self.after id handler effect).Lists r members where
  present := by
    intro other handler' found' living same
    by_cases eq : other = id
    · subst eq
      cases handlers_after_self.symm.trans found'
      exact absurd same entered
    · rw [handlers_after_of_ne eq] at found'
      exact lists.present other handler' found' living same
  handled := by
    intro member among
    obtain ⟨other, handler', found', same, in_⟩ := lists.handled member among
    have eq : other ≠ id := by
      rintro rfl
      cases found.symm.trans found'
      exact left in_
    exact ⟨other, handler', (handlers_after_of_ne eq).trans found', same, in_⟩

theorem roster_enrols (answers : self.AnswersSound) (slot : self.SlotSound) (alone : self.OneLive)
    (found : self.handlers id = some handler) {left waitingUntil : Nat} {base : Rounds}
    {round : OpenRound} (at_ : handler.place = .planning left waitingUntil)
    (based : self.rounds.Based self.record self.now handler.member.rebalanceTimeout base)
    (opened : base.openRound = some round) (enrolled : effect.enrolled = some round.id)
    (rounds : effect.rounds.openRound = (base.joinedBy round handler.member).openRound)
    (outcomes : effect.rounds.outcomes = base.outcomes)
    (installed : effect.rounds.installed = base.installed) :
    (self.after id handler effect).RosterSound := by
  have isOpen := based.isOpen slot.numbered opened
  have unset : self.rounds.outcomes round.id = none := by
    rw [← based.outcomes]
    exact isOpen.2
  have below : round.id < effect.rounds.installed := by
    rw [installed]
    exact (slot.numbered.turn (based.turns slot.numbered)).current_lt _ isOpen.current
  have grows : self.rounds.installed ≤ effect.rounds.installed := by
    rw [installed]
    cases based with
    | same => exact le_rfl
    | installed => exact Nat.le_succ _
  have lists : self.Lists round.id round.members := by
    cases based with
    | same other isOpen' => exact answers.roster.enrolled round isOpen
    | installed needed free =>
      cases opened
      exact lists_nil answers.roster le_rfl
  have live : handler.IsLive := by
    constructor
    · rw [at_]
      exact nofun
    · intro answer answered
      cases at_.symm.trans answered
  have abandoned := answers.fits id handler found
  rw [at_] at abandoned
  constructor
  · intro other handler' r found' same
    by_cases eq : other = id
    · subst eq
      cases handlers_after_self.symm.trans found'
      cases enrolled.symm.trans same
      exact below
    · rw [handlers_after_of_ne eq] at found'
      exact lt_of_lt_of_le (answers.roster.installed other handler' r found' same) grows
  · intro other isOpen'
    have there := isOpen'.1
    simp only [World.after] at there
    rw [rounds] at there
    cases there
    exact answers.enrols alone found live lists unset enrolled
  · intro r close published
    simp only [World.after] at published
    rw [outcomes, based.outcomes] at published
    refine elsewhere (answers.roster.listed r close published) found ?_ ?_
    · intro same
      cases published.symm.trans (abandoned r same)
    · rw [enrolled]
      intro same
      cases same
      cases unset.symm.trans published

theorem roster_withdraws (answers : self.AnswersSound) (slot : self.SlotSound)
    (alone : self.OneLive) (found : self.handlers id = some handler) {wait : Wait}
    (at_ : handler.place = .withdrawing wait)
    (enrolled : effect.enrolled =
      if (self.rounds.outcomes wait.round).isNone then none else handler.enrolled)
    (rounds : effect.rounds = self.rounds.withdraw handler.member.memberId wait.round) :
    (self.after id handler effect).RosterSound := by
  have waits : handler.enrolled = some wait.round := by
    have fits := answers.fits id handler found
    rwa [at_] at fits
  have living : handler.place ≠ .dropped := by
    rw [at_]
    rintro ⟨⟩
  cases unset : self.rounds.outcomes wait.round with
  | some outcome =>
    -- its round has an outcome: nothing changes
    rw [unset, Option.isNone_some, if_neg (by decide)] at enrolled
    have same : effect.rounds = self.rounds := by
      rw [rounds]
      unfold Rounds.withdraw
      split
      · rfl
      · split
        · rename_i isOwn
          obtain ⟨here, unset'⟩ := Rounds.isOwnOpenRound_iff.mp isOwn
          rw [here, unset] at unset'
          cases unset'
        · rfl
    refine answers.roster.keeps (.of_after found living enrolled) ?_ ?_ ?_
    · exact fun round isOpen => .inl ⟨round, same ▸ isOpen, rfl, rfl⟩
    · exact fun r close published => same ▸ published
    · exact same ▸ le_rfl
  | none =>
    rw [unset, Option.isNone_none, if_pos rfl] at enrolled
    have live := answers.live found living waits unset
    have current := slot.numbered.settled _ (answers.roster.installed id handler _ found waits) unset
    obtain ⟨round, isOpen, here⟩ := Rounds.current_eq_some.mp current
    have isOwn : self.rounds.isOwnOpenRound round.id wait.round = true :=
      Rounds.isOwnOpenRound_iff.mpr ⟨here, isOpen.2⟩
    have left : effect.rounds = { self.rounds with openRound := some { round with
        members := round.members.filter (·.memberId ≠ handler.member.memberId) } } := by
      rw [rounds, Rounds.withdraw, isOpen.1]
      simp only [isOwn, if_true]
    constructor
    · intro other handler' r found' same
      by_cases eq : other = id
      · subst eq
        cases handlers_after_self.symm.trans found'
        cases enrolled.symm.trans same
      · rw [handlers_after_of_ne eq] at found'
        simp only [World.after, left]
        exact answers.roster.installed other handler' r found' same
    · intro other isOpen'
      have there := isOpen'.1
      simp only [World.after, left] at there
      cases there
      exact answers.withdraws alone found live (answers.roster.enrolled round isOpen) isOpen.2
        enrolled
    · intro r close published
      simp only [World.after, left] at published
      refine elsewhere (answers.roster.listed r close published) found ?_ ?_
      · rw [waits]
        intro same
        cases same
        cases unset.symm.trans published
      · rw [enrolled]
        rintro ⟨⟩

theorem roster_publishes (answers : self.AnswersSound) (found : self.handlers id = some handler)
    (living : handler.place ≠ .dropped) (enrolled : effect.enrolled = handler.enrolled)
    {round : OpenRound} (isOpen : self.rounds.IsOpen round) (generation : Int)
    (rounds : effect.rounds = (self.rounds.finalizeClose generation).1) :
    (self.after id handler effect).RosterSound := by
  have keeps : self.Keeps (self.after id handler effect) := .of_after found living enrolled
  constructor
  · intro other after r found' same
    rcases keeps.before other after found' with none_ | ⟨handler', before, -, same', -⟩
    · cases none_.symm.trans same
    · simp only [World.after, rounds, Rounds.finalizeClose, isOpen.1, isOpen.2, Rounds.setOutcome]
      exact answers.roster.installed other handler' r before (same'.trans same)
  · intro other isOpen'
    simp only [World.after, rounds] at isOpen'
    cases (Rounds.current_finalizeClose isOpen generation).symm.trans isOpen'.current
  · intro r close published
    simp only [World.after, rounds, Rounds.outcomes_finalizeClose isOpen] at published
    by_cases here : r = round.id
    · rw [here, Function.update_self] at published
      cases published
      rw [here]
      exact ((answers.roster.enrolled round isOpen).perm (Rounds.perm_closeOf ..)).keeps keeps
    · rw [Function.update_of_ne here] at published
      exact (answers.roster.listed r close published).keeps keeps

theorem roster_moves (answers : self.AnswersSound) (slot : self.SlotSound) (alone : self.OneLive)
    (found : self.handlers id = some handler) (moved : Moves self id handler effect) :
    (self.after id handler effect).RosterSound := by
  have suits := slot.suits _ _ found
  have turned := moved.turns suits slot.numbered
  have living := moved.not_dropped
  have still (enrolled : effect.enrolled = handler.enrolled)
      (opened : ∀ round, effect.rounds.IsOpen round →
        (∃ before, self.rounds.IsOpen before ∧ before.id = round.id ∧
          before.members = round.members) ∨
        (self.rounds.installed ≤ round.id ∧ round.members = []))
      (published : ∀ r close, effect.rounds.outcomes r = some (some close) →
        self.rounds.outcomes r = some (some close)) :
      (self.after id handler effect).RosterSound := by
    refine answers.roster.keeps (.of_after found living enrolled) opened published ?_
    cases turned with
    | stays _ _ installed => exact installed.ge
    | opens _ _ _ installed => exact installed.symm ▸ Nat.le_succ _
    | settles _ _ _ installed => exact installed.ge
  have unpublished (elsewhere : ∀ purpose answer, handler.place ≠ .closing purpose answer)
      (r : Nat) (close : RoundClose) (published : effect.rounds.outcomes r = some (some close)) :
      self.rounds.outcomes r = some (some close) := by
    rcases moved.heard_of_publishes suits published with before | ⟨purpose, record, _, at_, -⟩
    · exact before
    · exact absurd at_ (elsewhere purpose _)
  cases moved with
  | walks walk =>
    exact still rfl (fun round isOpen => .inl ⟨round, isOpen, rfl, rfl⟩) fun _ _ set_ => set_
  | refuses at_ free planned =>
    refine still rfl ?_ (unpublished (by rw [at_]; exact nofun))
    rcases planned with planned | ⟨unclaimed, rfl⟩
    · cases planned with
      | same => exact fun round isOpen => .inl ⟨round, isOpen, rfl, rfl⟩
      | installed needed unclaimed =>
        intro round isOpen
        cases isOpen.1
        exact .inr ⟨le_rfl, rfl⟩
    · exact fun round isOpen => .inl ⟨round, isOpen, rfl, rfl⟩
  | opens at_ =>
    exact still rfl (fun round isOpen => .inl ⟨round, isOpen, rfl, rfl⟩)
      (unpublished (by rw [at_]; exact nofun))
  | enrols at_ free based opened electable =>
    exact answers.roster_enrols slot alone found at_ based opened rfl rfl rfl rfl
  | fills at_ free based opened unclaimed electable full =>
    exact answers.roster_enrols slot alone found at_ based opened rfl rfl rfl rfl
  | installs at_ =>
    refine still rfl ?_ (unpublished (by rw [at_]; exact nofun))
    intro round isOpen
    cases isOpen.1
    exact .inr ⟨le_rfl, rfl⟩
  | leaves leaving free =>
    exact still rfl (fun round isOpen => .inl ⟨round, isOpen, rfl, rfl⟩) fun _ _ set_ => set_
  | publishes at_ free isOpen =>
    exact answers.roster_publishes found living rfl isOpen _ rfl
  | stale at_ needed =>
    exact still rfl (fun round isOpen => .inl ⟨round, isOpen, rfl, rfl⟩) fun _ _ set_ => set_
  | abandons at_ free =>
    rename_i purpose refusal forgetRoster
    rw [at_] at suits
    refine still rfl ?_ ?_
    · intro round isOpen
      obtain ⟨before, isOpen', -⟩ := Rounds.current_eq_some.mp suits
      have nobody : (self.rounds.abandonRound forgetRoster).openRound = none := by
        cases forgetRoster <;> simp [Rounds.abandonRound, isOpen'.1]
      cases nobody.symm.trans isOpen.1
    · intro r close published
      simp only [Rounds.outcomes_abandonRound suits] at published
      by_cases here : r = purpose.round
      · rw [here, Function.update_self] at published
        cases published
      · rwa [Function.update_of_ne here] at published
  | locks at_ =>
    exact still rfl (fun round isOpen => .inl ⟨round, isOpen, rfl, rfl⟩) fun _ _ set_ => set_
  | rosterDead at_ => exact still rfl (openRound_setAwaiting _) fun _ _ set_ => set_
  | rechecks at_ => exact still rfl (openRound_setAwaiting _) fun _ _ set_ => set_
  | claims at_ =>
    exact still rfl (fun round isOpen => .inl ⟨round, isOpen, rfl, rfl⟩) fun _ _ set_ => set_
  | withdraws at_ free => exact answers.roster_withdraws slot alone found at_ rfl rfl
  | registers at_ =>
    exact still rfl (fun round isOpen => .inl ⟨round, isOpen, rfl, rfl⟩) fun _ _ set_ => set_

theorem moves (answers : self.AnswersSound) (slot : self.SlotSound) (alone : self.OneLive)
    (found : self.handlers id = some handler) (moved : Moves self id handler effect)
    (careful : ∀ purpose record other giving wait,
      handler.place = .closing purpose (some (.ok record)) → self.handlers other = some giving →
      giving.place = .withdrawing wait → wait.round ≠ purpose.round) :
    (self.after id handler effect).AnswersSound where
  roster := answers.roster_moves slot alone found moved
  fits := by
    intro other handler' found'
    have suits := slot.suits _ _ found
    by_cases eq : other = id
    · subst eq
      cases handlers_after_self.symm.trans found'
      exact moved.fits slot suits (answers.fits other handler found)
        (answers.careful other handler found)
    · rw [handlers_after_of_ne eq] at found'
      exact (answers.fits other handler' found').turn fun r outcome set_ =>
        (moved.turns suits slot.numbered).outcome set_
  careful := by
    intro other handler' found'
    have suits := slot.suits _ _ found
    by_cases eq : other = id
    · subst eq
      cases handlers_after_self.symm.trans found'
      exact moved.careful suits
    · rw [handlers_after_of_ne eq] at found'
      have before := answers.careful other handler' found'
      generalize at_ : handler'.place = place at before
      cases place with
      | withdrawing wait =>
        intro close published
        rcases moved.heard_of_publishes suits published with published |
          ⟨purpose, record, _, closing, same, -⟩
        · exact before close published
        · exact careful purpose record other handler' wait closing found' at_ same.symm
      | persisting purpose close answer =>
        cases purpose <;> cases answer <;> exact before
      | _ => exact before

theorem hears (answers : self.AnswersSound) {replyTo : Option Nat} {change : Place → Place}
    (handlers : next.handlers = JoinGroup.hearing self.handlers replyTo change)
    (rounds : next.rounds = self.rounds) (dropped : change .dropped = .dropped)
    (fits : ∀ place rounds enrolled, (change place).Fits rounds enrolled ↔
      place.Fits rounds enrolled)
    (careful : ∀ id handler, replyTo = some id → self.handlers id = some handler →
      (change handler.place).Careful self.rounds) : next.AnswersSound where
  roster := by
    refine answers.roster.keeps (.hearing handlers dropped) ?_ ?_ (rounds ▸ le_rfl)
    · exact fun round isOpen => .inl ⟨round, rounds ▸ isOpen, rfl, rfl⟩
    · exact fun r close published => rounds ▸ published
  fits := by
    intro id after found
    rw [handlers] at found
    obtain ⟨handler, before, rfl⟩ := Option.map_eq_some_iff.mp found
    rw [rounds]
    split
    · exact (fits _ _ _).mpr (answers.fits id handler before)
    · exact answers.fits id handler before
  careful := by
    intro id after found
    rw [handlers] at found
    obtain ⟨handler, before, rfl⟩ := Option.map_eq_some_iff.mp found
    rw [rounds]
    split
    · rename_i told
      exact careful id handler told before
    · exact answers.careful id handler before

theorem drops (answers : self.AnswersSound) (found : self.handlers id = some handler)
    (living : handler.place ≠ .dropped) {rounds : Rounds}
    (opened : rounds.openRound = self.rounds.openRound)
    (outcomes : rounds.outcomes = self.rounds.outcomes)
    (installed : rounds.installed = self.rounds.installed) :
    (self.after id handler { self.still handler .dropped with rounds }).AnswersSound where
  roster := by
    refine answers.roster.keeps (.of_after found living rfl) ?_ ?_ installed.ge
    · intro round isOpen
      refine .inl ⟨round, ⟨opened ▸ isOpen.1, outcomes ▸ isOpen.2⟩, rfl, rfl⟩
    · exact fun r close published => outcomes ▸ published
  fits := by
    intro other handler' found'
    by_cases eq : other = id
    · subst eq
      cases handlers_after_self.symm.trans found'
      trivial
    · rw [handlers_after_of_ne eq] at found'
      exact (answers.fits other handler' found').turn fun r outcome set_ => outcomes ▸ set_
  careful := by
    intro other handler' found'
    by_cases eq : other = id
    · subst eq
      cases handlers_after_self.symm.trans found'
      trivial
    · rw [handlers_after_of_ne eq] at found'
      have before := answers.careful other handler' found'
      unfold Place.Careful at before ⊢
      simp only [World.after, outcomes]
      exact before

theorem arrives (answers : self.AnswersSound) {minted : Nat} (new : self.handlers id = none)
    (unenrolled : handler.enrolled = none)
    (place : (∃ left waitingUntil, handler.place = .planning left waitingUntil) ∨
      ∃ errorCode, handler.place = .answered (.refused errorCode)) :
    ({ self with minted, handlers := Function.update self.handlers id (some handler) } :
      World).AnswersSound where
  roster := by
    refine answers.roster.keeps ⟨?_, ?_⟩ ?_ (fun _ _ set_ => set_) le_rfl
    · intro other after found
      dsimp only at found
      by_cases eq : other = id
      · subst eq
        rw [Function.update_self] at found
        cases found
        exact .inl unenrolled
      · rw [Function.update_of_ne eq] at found
        exact .inr ⟨after, found, rfl, rfl, fun gone => gone⟩
    · exact fun other before found => ⟨before, handlers_arrived new found, rfl, rfl⟩
    · exact fun round isOpen => .inl ⟨round, isOpen, rfl, rfl⟩
  fits := by
    intro other after found
    dsimp only at found
    by_cases eq : other = id
    · subst eq
      rw [Function.update_self] at found
      cases found
      have abandoned : Abandoned self.rounds handler.enrolled := by
        rw [unenrolled]
        exact nofun
      rcases place with ⟨_, _, at_⟩ | ⟨_, at_⟩
      · rw [at_]
        exact abandoned
      · rw [at_]
        exact abandoned
    · rw [Function.update_of_ne eq] at found
      exact answers.fits other after found
  careful := by
    intro other after found
    dsimp only at found
    by_cases eq : other = id
    · subst eq
      rw [Function.update_self] at found
      cases found
      rcases place with ⟨_, _, at_⟩ | ⟨_, at_⟩ <;> rw [at_] <;> trivial
    · rw [Function.update_of_ne eq] at found
      exact answers.careful other after found

theorem init : World.AnswersSound {} where
  roster := by
    refine ⟨?_, nofun, nofun⟩
    intro id handler r found
    cases found
  fits := by
    intro id handler found
    cases found
  careful := by
    intro id handler found
    cases found

theorem step (answers : self.AnswersSound) (slot : self.SlotSound) (alone : self.OneLive)
    (careful : ¬ Slips self action) (stepped : Stepped self action next) :
    next.AnswersSound := by
  have unheard {other : World} (handlers : other.handlers = self.handlers)
      (rounds : other.rounds = self.rounds) : other.AnswersSound := by
    have none_ : other.handlers = JoinGroup.hearing self.handlers none id := by
      rw [handlers]
      exact (hearing_unchanged (by simp)).symm
    refine answers.hears none_ rounds rfl (fun _ _ _ => Iff.rfl) ?_
    exact fun id handler _ found => answers.careful id handler found
  cases stepped with
  | ticks => exact unheard rfl rfl
  | arrives new unenrolled place => exact answers.arrives new unenrolled place
  | moves found moved acted =>
    refine answers.moves slot alone found moved ?_
    intro purpose record other giving wait closing found' at_ same
    rcases acted with act | ⟨_, _, parked⟩
    · exact careful (.inr ⟨_, _, purpose, record, other, giving, wait, act, found, closing,
        found', at_, same⟩)
    · cases closing.symm.trans parked
  | drops found awaits free =>
    rw [goTo_eq]
    exact answers.drops found (by intro at_; rw [at_] at awaits; cases awaits) rfl rfl rfl
  | dropsHolder found awaits holds free =>
    rw [releaseSlot_goTo]
    exact answers.drops found (by intro at_; rw [at_] at awaits; cases awaits) rfl rfl rfl
  | accepts first taken =>
    refine answers.hears rfl rfl rfl (fun _ _ _ => heard_fits) ?_
    exact fun id handler _ found => heard_careful.mpr (answers.careful id handler found)
  | rejects first =>
    refine answers.hears rfl rfl rfl (fun _ _ _ => heard_fits) ?_
    exact fun id handler _ found => heard_careful.mpr (answers.careful id handler found)
  | stores first acted =>
    rename_i snapshot replyTo queue roster lands
    refine answers.hears rfl rfl rfl (fun _ _ _ => stored_fits) ?_
    intro id handler told found
    cases told
    have before := answers.careful replyTo handler found
    unfold Place.stored
    split
    · rename_i purpose close at_
      cases purpose with
      | waiting => trivial
      | joining left waitingUntil round =>
        cases lands with
        | true => rfl
        | false =>
          exact absurd (.inl ⟨acted, snapshot, replyTo, queue, handler, left, waitingUntil, round,
            close, first, found, at_⟩) careful
    · exact before
  | foreign none_ => exact unheard rfl rfl

end AnswersSound

/-- What holds in every state a run comes through, with the step it takes from there. -/
def Throughout (P : World → Option Action → Prop) (actions : List Action) : Prop :=
  ∀ before after mid, actions = before ++ after → Steps.run World.step {} before = some mid →
    P mid after.head?

theorem AnswersSound.run {actions : List Action} {world : World}
    (ran : Steps.run World.step {} actions = some world)
    (alone : Throughout (fun world _ => world.OneLive) actions)
    (careful : Throughout (fun world action => ∀ acted ∈ action, ¬ Slips world acted) actions) :
    world.AnswersSound := by
  refine Steps.run_history (fun before world => before <+: actions → world.AnswersSound)
    (fun _ => .init) ?_ ran (List.prefix_refl _)
  rintro before mid action next ran_mid answers stepped ⟨after, rfl⟩
  rw [List.append_assoc, List.singleton_append] at alone careful
  have answers := answers ⟨action :: after, by simp⟩
  exact answers.step (Sound.init.run ran_mid).slot (alone before _ mid rfl ran_mid)
    (careful before _ mid rfl ran_mid action rfl) (step_stepped stepped)

end World

end JoinGroup

end Oqueue
