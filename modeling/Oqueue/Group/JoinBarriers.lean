import Oqueue.Group.JoinQueue

/-!
# One barrier per join round

A barrier that the coordinator takes leads to the close that its holder publishes, unless
the holder is dropped first. So the round's close carries the generation of the last
barrier taken for it, and no other round carries the same.
-/

namespace Oqueue

namespace JoinGroup

namespace World

variable {self next : World} {action : Action} {id : Nat} {handler : Handler} {effect : Effect}

/-- Its holder was dropped, or has yet to hear of it, or has closed the round. -/
def Fate (self : World) (barrier : Barrier) : Prop :=
  self.IsDropped barrier.holder ∨
  (∃ handler purpose record, self.handlers barrier.holder = some handler ∧
    handler.place = .closing purpose (some (.ok record)) ∧ purpose.round = barrier.round ∧
    record.generation = barrier.generation) ∨
  ∃ close, self.rounds.outcomes barrier.round = some (some close)

/-- The barrier is the last one taken for its round. -/
def LastBarrier (self : World) (barrier : Barrier) : Prop :=
  barrier ∈ self.barriers ∧ ∀ other ∈ self.barriers, other.round = barrier.round →
    other = barrier ∨ other.generation < barrier.generation

theorem mem_barrierOf {replyTo round : Option Nat} {record : GroupRecord} {barrier : Barrier} :
    barrier ∈ barrierOf replyTo round record ↔ round = some barrier.round ∧
      replyTo = some barrier.holder ∧ barrier.generation = record.generation := by
  obtain ⟨r, holder, generation⟩ := barrier
  rcases round with none | round
  · simp [barrierOf]
  · rcases replyTo with none | replyTo
    · simp [barrierOf]
    · simp [barrierOf, eq_comm]

theorem barrierOf_pairwise (replyTo round : Option Nat) (record : GroupRecord)
    {R : Barrier → Barrier → Prop} : (barrierOf replyTo round record).Pairwise R := by
  unfold barrierOf
  split
  · exact List.pairwise_singleton ..
  · exact .nil

structure BarriersSound (world : World) : Prop where
  increasing : world.barriers.Pairwise fun earlier later => earlier.generation < later.generation
  bounded : ∀ barrier ∈ world.barriers, barrier.generation ≤ (world.record.getD .fresh).generation
  answered : ∀ id handler purpose record, world.handlers id = some handler →
    handler.place = .closing purpose (some (.ok record)) →
    (⟨purpose.round, id, record.generation⟩ : Barrier) ∈ world.barriers
  fate : ∀ barrier ∈ world.barriers, world.Fate barrier
  once : world.barriers.Pairwise fun earlier later => earlier.round = later.round →
    world.IsDropped earlier.holder
  published : ∀ r close, world.rounds.outcomes r = some (some close) →
    ∃ barrier, world.LastBarrier barrier ∧ barrier.round = r ∧
      barrier.generation = close.generation

end World

namespace Moves

variable {self : World} {id : Nat} {handler : Handler} {effect : Effect}

/-- Whoever hears that its barrier was taken closes its round with that generation. -/
theorem publishes_heard (moved : Moves self id handler effect)
    (suits : handler.place.Suits self.rounds) {purpose : Purpose} {record : GroupRecord}
    (at_ : handler.place = .closing purpose (some (.ok record))) :
    ∃ close, effect.rounds.outcomes purpose.round = some (some close) ∧
      close.generation = record.generation := by
  cases moved with
  | publishes at_' free isOpen =>
    cases at_.symm.trans at_'
    rw [at_] at suits
    rename_i round
    have same := Option.some.inj (isOpen.current.symm.trans suits)
    refine ⟨Rounds.closeOf round.members (self.rounds.lastRoundMembers.getD []) record.generation,
      ?_, Rounds.generation_closeOf ..⟩
    simp only [Rounds.outcomes_finalizeClose isOpen, ← same, Function.update_self]
  | stale at_' needed =>
    rw [at_] at suits
    rw [← Rounds.current_eq_none] at needed
    cases needed.symm.trans suits
  | walks walk =>
    rw [at_] at walk
    cases walk
  | leaves leaving =>
    rw [at_] at leaving
    cases leaving
  | refuses at_' | opens at_' | enrols at_' | fills at_' | installs at_' | abandons at_'
  | locks at_' | rosterDead at_' | rechecks at_' | claims at_' | withdraws at_'
  | registers at_' => cases at_.symm.trans at_'

/-- Nobody else publishes a close. -/
theorem heard_of_publishes (moved : Moves self id handler effect)
    (suits : handler.place.Suits self.rounds) {r : Nat} {close : RoundClose}
    (published : effect.rounds.outcomes r = some (some close)) :
    self.rounds.outcomes r = some (some close) ∨
    ∃ purpose record round, handler.place = .closing purpose (some (.ok record)) ∧
      purpose.round = r ∧ self.rounds.IsOpen round ∧ round.id = r ∧ self.lock = none ∧
      close = Rounds.closeOf round.members (self.rounds.lastRoundMembers.getD [])
        record.generation := by
  cases moved with
  | publishes at_ free isOpen =>
    rename_i purpose record round
    rw [at_] at suits
    have same := Option.some.inj (isOpen.current.symm.trans suits)
    simp only [Rounds.outcomes_finalizeClose isOpen] at published
    by_cases here : r = round.id
    · subst here
      rw [Function.update_self] at published
      cases published
      exact .inr ⟨purpose, record, round, at_, same.symm, isOpen, rfl, free, rfl⟩
    · rw [Function.update_of_ne here] at published
      exact .inl published
  | abandons at_ free =>
    rw [at_] at suits
    simp only [Rounds.outcomes_abandonRound suits] at published
    rename_i purpose _ _
    left
    by_cases here : r = purpose.round
    · rw [here, Function.update_self] at published
      cases published
    · rw [Function.update_of_ne here] at published
      exact published
  | refuses at_ free planned =>
    rcases planned with planned | ⟨unclaimed, rfl⟩
    · exact .inl (planned.outcomes ▸ published)
    · exact .inl published
  | enrols at_ free planned => exact .inl (planned.outcomes ▸ published)
  | fills at_ free planned => exact .inl (planned.outcomes ▸ published)
  | withdraws => exact .inl (Rounds.outcomes_withdraw .. ▸ published)
  | _ => exact .inl published

end Moves

namespace World

variable {self next : World} {action : Action} {id : Nat} {handler : Handler} {effect : Effect}

theorem Fate.hearing {barrier : Barrier} (fate : self.Fate barrier) {replyTo : Option Nat}
    {change : Place → Place} (handlers : next.handlers = JoinGroup.hearing self.handlers replyTo change)
    (rounds : next.rounds = self.rounds) (dropped : change .dropped = .dropped)
    (heard : ∀ purpose answer, change (.closing purpose (some answer)) =
      .closing purpose (some answer)) : next.Fate barrier := by
  rcases fate with gone | ⟨handler, purpose, record, found, at_, same, generation⟩ | published
  · exact .inl (gone.hearing handlers dropped)
  · right
    left
    rw [handlers]
    refine ⟨_, purpose, record, by rw [JoinGroup.hearing, found, Option.map_some], ?_, same,
      generation⟩
    split
    · simp only [at_, heard]
    · exact at_
  · exact .inr (.inr (rounds ▸ published))

theorem Fate.after {barrier : Barrier} (fate : self.Fate barrier) (slot : self.SlotSound)
    (found : self.handlers id = some handler) (moved : Moves self id handler effect) :
    (self.after id handler effect).Fate barrier := by
  have suits := slot.suits _ _ found
  rcases fate with gone | ⟨handler', purpose, record, found', at_, same, generation⟩ |
    ⟨close, published⟩
  · exact .inl (gone.after found moved.not_dropped)
  · by_cases mine : barrier.holder = id
    · rw [mine] at found'
      cases found.symm.trans found'
      obtain ⟨close, published, -⟩ := moved.publishes_heard suits at_
      exact .inr (.inr ⟨close, same ▸ published⟩)
    · refine .inr (.inl ⟨handler', purpose, record, ?_, at_, same, generation⟩)
      exact (handlers_after_of_ne mine).trans found'
  · exact .inr (.inr ⟨close, (moved.turns suits slot.numbered).outcome published⟩)

namespace BarriersSound

theorem compare (taken : self.BarriersSound) {a b : Barrier} (ha : a ∈ self.barriers)
    (hb : b ∈ self.barriers) (same : a.round = b.round) :
    a = b ∨ (a.generation < b.generation ∧ self.IsDropped a.holder) ∨
      (b.generation < a.generation ∧ self.IsDropped b.holder) := by
  have earlier := taken.increasing.and taken.once
  refine List.Pairwise.forall_of_forall_of_flip (R := fun a b => a.round = b.round →
    a = b ∨ (a.generation < b.generation ∧ self.IsDropped a.holder) ∨
      (b.generation < a.generation ∧ self.IsDropped b.holder)) ?_ ?_ ?_ ha hb same
  · exact fun a _ _ => .inl rfl
  · exact earlier.imp fun h same => .inr (.inl ⟨h.1, h.2 same⟩)
  · exact earlier.imp fun h same => .inr (.inr ⟨h.1, h.2 same.symm⟩)

theorem moves (taken : self.BarriersSound) (slot : self.SlotSound)
    (found : self.handlers id = some handler) (moved : Moves self id handler effect) :
    (self.after id handler effect).BarriersSound := by
  have suits := slot.suits _ _ found
  refine ⟨taken.increasing, taken.bounded, ?_, ?_, ?_, ?_⟩
  · intro other handler' purpose record found' at_
    by_cases same : other = id
    · subst same
      cases handlers_after_self.symm.trans found'
      exact absurd at_ (moved.not_heard suits)
    · rw [handlers_after_of_ne same] at found'
      exact taken.answered other handler' purpose record found' at_
  · exact fun barrier member => (taken.fate barrier member).after slot found moved
  · exact taken.once.imp fun once same => (once same).after found moved.not_dropped
  · intro r close published
    rcases moved.heard_of_publishes suits published with before |
      ⟨purpose, record, round, at_, rfl, isOpen, -, -, rfl⟩
    · exact taken.published r close before
    · have mine := taken.answered id handler purpose record found at_
      refine ⟨_, ⟨mine, ?_⟩, rfl, (Rounds.generation_closeOf _ _ _).symm⟩
      intro other member same
      rcases taken.compare member mine same with eq | ⟨less, -⟩ | ⟨-, gone⟩
      · exact .inl eq
      · exact .inr less
      · obtain ⟨handler', found', dropped⟩ := gone
        cases found.symm.trans found'
        cases at_.symm.trans dropped

/-- An answer other than a barrier's acceptance takes nobody to the close of a round. -/
theorem hears (taken : self.BarriersSound) {replyTo : Option Nat} {change : Place → Place}
    (handlers : next.handlers = JoinGroup.hearing self.handlers replyTo change)
    (rounds : next.rounds = self.rounds) (record : next.record = self.record)
    (barriers : next.barriers = self.barriers) (dropped : change .dropped = .dropped)
    (heard : ∀ purpose answer, change (.closing purpose (some answer)) =
      .closing purpose (some answer))
    (refused : ∀ place purpose record, change place = .closing purpose (some (.ok record)) →
      place = .closing purpose (some (.ok record))) : next.BarriersSound := by
  constructor
  · rw [barriers]
    exact taken.increasing
  · rw [barriers, record]
    exact taken.bounded
  · intro id handler purpose answered found at_
    rw [handlers] at found
    obtain ⟨before, found_before, rfl⟩ := Option.map_eq_some_iff.mp found
    rw [barriers]
    refine taken.answered id before purpose answered found_before ?_
    split at at_
    · exact refused _ _ _ at_
    · exact at_
  · rw [barriers]
    exact fun barrier member => (taken.fate barrier member).hearing handlers rounds dropped heard
  · rw [barriers]
    exact taken.once.imp fun once same => (once same).hearing handlers dropped
  · unfold LastBarrier
    rw [rounds, barriers]
    exact taken.published

theorem drops (taken : self.BarriersSound) (found : self.handlers id = some handler)
    (living : handler.place ≠ .dropped) {rounds : Rounds}
    (outcomes : rounds.outcomes = self.rounds.outcomes) :
    (self.after id handler { self.still handler .dropped with rounds }).BarriersSound := by
  refine ⟨taken.increasing, taken.bounded, ?_, ?_, ?_, ?_⟩
  · intro other handler' purpose record found' at_
    by_cases same : other = id
    · subst same
      cases handlers_after_self.symm.trans found'
      cases at_
    · rw [handlers_after_of_ne same] at found'
      exact taken.answered other handler' purpose record found' at_
  · intro barrier member
    rcases taken.fate barrier member with gone |
      ⟨handler', purpose, record, found', at_, same, generation⟩ | ⟨close, published⟩
    · exact .inl (gone.after found living)
    · by_cases mine : barrier.holder = id
      · left
        rw [mine]
        exact ⟨_, handlers_after_self, rfl⟩
      · refine .inr (.inl ⟨handler', purpose, record, ?_, at_, same, generation⟩)
        exact (handlers_after_of_ne mine).trans found'
    · exact .inr (.inr ⟨close, outcomes ▸ published⟩)
  · exact taken.once.imp fun once same => (once same).after found living
  · intro r close published
    refine taken.published r close ?_
    rw [← outcomes]
    exact published

theorem accepts (taken : self.BarriersSound) (queued : self.QueueSound)
    {event : GroupEvent} {replyTo round : Option Nat} {queue : List Request} {record : GroupRecord}
    {roster : Option GroupRosterSnapshot} (first : self.queue = .transition event replyTo round :: queue)
    (accepted : (self.record.getD .fresh).transition event = .ok record) :
    ({ self with
      record := some record, roster, queue
      barriers := self.barriers ++ barrierOf replyTo round record
      handlers := hearing self.handlers replyTo (.heard (.ok record)) } : World).BarriersSound := by
  have asked : Request.transition event replyTo round ∈ self.queue := by
    rw [first]
    exact List.mem_cons_self ..
  have grows := GroupRecord.generation_le_transition accepted
  -- a barrier is taken while its round is open, so the record moves to a new generation
  have new {barrier : Barrier} (member : barrier ∈ barrierOf replyTo round record) :
      self.rounds.current = some barrier.round ∧
        (self.record.getD .fresh).generation < barrier.generation := by
    obtain ⟨rfl, rfl, generation⟩ := mem_barrierOf.mp member
    obtain ⟨_, _, same⟩ := queued.barrier _ asked rfl
    cases same
    refine ⟨queued.tagged _ asked _ rfl, ?_⟩
    rw [generation, GroupRecord.generation_transition accepted, if_pos rfl]
    omega
  have lost {earlier barrier : Barrier} (before : earlier ∈ self.barriers)
      (member : barrier ∈ barrierOf replyTo round record) (same : earlier.round = barrier.round) :
      self.IsDropped earlier.holder := by
    rcases taken.fate earlier before with gone | ⟨handler, purpose, heard, found, at_, -, -⟩ |
      ⟨close, published⟩
    · exact gone
    · obtain ⟨rfl, -, -⟩ := mem_barrierOf.mp member
      cases queued.heard _ handler purpose _ found at_ _ asked
    · rw [same, Rounds.outcome_of_current (new member).1] at published
      cases published
  refine ⟨?_, ?_, ?_, ?_, ?_, ?_⟩
  · refine List.pairwise_append.mpr ⟨taken.increasing, barrierOf_pairwise .., ?_⟩
    intro earlier before barrier member
    have := taken.bounded earlier before
    have := (new member).2
    omega
  · intro barrier member
    rcases List.mem_append.mp member with before | member
    · exact le_trans (taken.bounded barrier before) grows
    · exact (mem_barrierOf.mp member).2.2.le
  · intro id handler purpose answered found at_
    obtain ⟨before, found_before, rfl⟩ := Option.map_eq_some_iff.mp found
    split at at_
    · rename_i told
      rcases heard_closing at_ with same | ⟨same, answer⟩
      · exact List.mem_append_left _ (taken.answered id before purpose answered found_before same)
      · cases answer
        obtain ⟨handler', found', matched⟩ := queued.awaited _ asked id told
        cases found_before.symm.trans found'
        rw [same] at matched
        cases matched with
        | closing here =>
          subst told here
          exact List.mem_append_right _ (List.mem_singleton_self _)
    · exact List.mem_append_left _ (taken.answered id before purpose answered found_before at_)
  · intro barrier member
    rcases List.mem_append.mp member with before | member
    · exact (taken.fate barrier before).hearing rfl rfl rfl fun _ _ => rfl
    · obtain ⟨rfl, rfl, generation⟩ := mem_barrierOf.mp member
      obtain ⟨handler, found, matched⟩ := queued.awaited _ asked barrier.holder rfl
      generalize at_ : handler.place = place at matched
      cases matched with
      | closing same =>
        refine .inr (.inl ⟨{ handler with place := handler.place.heard (.ok record) }, _, record,
          ?_, ?_, same, generation.symm⟩)
        · simp [JoinGroup.hearing, found]
        · rw [at_]
          rfl
      | dropped =>
        exact .inl (IsDropped.hearing ⟨handler, found, at_⟩ rfl rfl)
  · refine List.pairwise_append.mpr ⟨?_, barrierOf_pairwise .., ?_⟩
    · exact taken.once.imp fun once same => (once same).hearing rfl rfl
    · intro earlier before barrier member same
      exact (lost before member same).hearing rfl rfl
  · intro r close published
    obtain ⟨barrier, last, same, generation⟩ := taken.published r close published
    refine ⟨barrier, ⟨List.mem_append_left _ last.1, ?_⟩, same, generation⟩
    intro other member same'
    rcases List.mem_append.mp member with before | member
    · exact last.2 other before same'
    · have unset := Rounds.outcome_of_current (new member).1
      rw [same', same, published] at unset
      cases unset

theorem arrives (taken : self.BarriersSound) {minted : Nat} (new : self.handlers id = none)
    (notClosing : ∀ purpose answer, handler.place ≠ .closing purpose answer) :
    ({ self with minted, handlers := Function.update self.handlers id (some handler) } :
      World).BarriersSound := by
  refine ⟨taken.increasing, taken.bounded, ?_, ?_, ?_, taken.published⟩
  · intro other handler' purpose record found at_
    dsimp only at found
    by_cases same : other = id
    · subst same
      rw [Function.update_self] at found
      cases found
      exact absurd at_ (notClosing _ _)
    · rw [Function.update_of_ne same] at found
      exact taken.answered other handler' purpose record found at_
  · intro barrier member
    rcases taken.fate barrier member with ⟨handler', found, gone⟩ |
      ⟨handler', purpose, record, found, rest⟩ | published
    · exact .inl ⟨handler', handlers_arrived new found, gone⟩
    · exact .inr (.inl ⟨handler', purpose, record, handlers_arrived new found, rest⟩)
    · exact .inr (.inr published)
  · refine taken.once.imp fun once same => ?_
    obtain ⟨handler', found, gone⟩ := once same
    exact ⟨handler', handlers_arrived new found, gone⟩

theorem init : World.BarriersSound {} := by
  refine ⟨.nil, nofun, ?_, nofun, .nil, nofun⟩
  intro id handler purpose record found
  cases found

theorem step (taken : self.BarriersSound) (slot : self.SlotSound) (queued : self.QueueSound)
    (stepped : Stepped self action next) : next.BarriersSound := by
  have unheard {nobody : World} (handlers : nobody.handlers = self.handlers)
      (rounds : nobody.rounds = self.rounds) (record : nobody.record = self.record)
      (barriers : nobody.barriers = self.barriers) : nobody.BarriersSound := by
    have none_ : nobody.handlers = hearing self.handlers none id := by
      rw [handlers]
      exact (hearing_unchanged (by simp)).symm
    exact taken.hears none_ rounds record barriers rfl (fun _ _ => rfl) fun _ _ _ h => h
  cases stepped with
  | ticks => exact unheard rfl rfl rfl rfl
  | arrives new unenrolled place acted =>
    refine taken.arrives new fun purpose answer at_ => ?_
    rcases place with ⟨_, _, place⟩ | ⟨_, place⟩ <;> cases place.symm.trans at_
  | moves found moved => exact taken.moves slot found moved
  | drops found awaits free =>
    rw [goTo_eq]
    exact taken.drops found (by intro at_; rw [at_] at awaits; cases awaits) rfl
  | dropsHolder found awaits holds free =>
    rw [releaseSlot_goTo]
    exact taken.drops found (by intro at_; rw [at_] at awaits; cases awaits) rfl
  | accepts first accepted => exact taken.accepts queued first accepted
  | rejects first =>
    refine taken.hears rfl rfl rfl rfl rfl (fun _ _ => rfl) fun place purpose record at_ => ?_
    rcases heard_closing at_ with same | ⟨-, refused⟩
    · exact same
    · cases refused
  | stores first =>
    exact taken.hears rfl rfl rfl rfl rfl (fun _ _ => rfl) fun _ _ _ at_ => stored_closing at_
  | foreign none_ => exact unheard rfl rfl rfl rfl

end BarriersSound

structure Sound (world : World) : Prop where
  slot : world.SlotSound
  queued : world.QueueSound
  taken : world.BarriersSound

namespace Sound

theorem init : World.Sound {} := ⟨.init, .init, .init⟩

theorem step (sound : self.Sound) (h : self.step action = some next) :
    next.Sound := by
  have stepped := step_stepped h
  exact ⟨sound.slot.step stepped, sound.queued.step sound.slot stepped,
    sound.taken.step sound.slot sound.queued stepped⟩

theorem run (sound : self.Sound) {actions : List Action}
    (h : Steps.run World.step self actions = some next) : next.Sound :=
  Steps.run_invariant World.Sound (fun _ _ _ sound stepped => sound.step stepped) sound h

theorem outcome_run (sound : self.Sound) {actions : List Action}
    (h : Steps.run World.step self actions = some next) {r : Nat} {outcome : Option RoundClose}
    (set_ : self.rounds.outcomes r = some outcome) : next.rounds.outcomes r = some outcome := by
  have kept := Steps.run_invariant
    (fun world : World => world.Sound ∧ world.rounds.outcomes r = some outcome)
    (fun _ _ _ before stepped => ⟨before.1.step stepped,
      Stepped.outcome before.1.slot (step_stepped stepped) before.2⟩) ⟨sound, set_⟩ h
  exact kept.2

theorem holder_of_request (sound : self.Sound) {request : Request} (member : request ∈ self.queue)
    {id : Nat} (asked : request.replyTo? = some id) : self.Holds id ∨ self.IsDropped id := by
  obtain ⟨handler, found, matched⟩ := sound.queued.awaited request member id asked
  generalize at_ : handler.place = place at matched
  cases matched with
  | dropped => exact .inr ⟨handler, found, at_⟩
  | _ => exact .inl ⟨handler, found, by rw [at_]; rfl⟩

theorem generation_injective (sound : self.Sound) {r s : Nat} {close other : RoundClose}
    (closed : self.rounds.outcomes r = some (some close))
    (closed' : self.rounds.outcomes s = some (some other)) (differ : r ≠ s) :
    close.generation ≠ other.generation := by
  obtain ⟨a, last, rfl, generation⟩ := sound.taken.published r close closed
  obtain ⟨b, last', rfl, generation'⟩ := sound.taken.published s other closed'
  intro same
  have apart : self.barriers.Pairwise fun a b => a.generation ≠ b.generation :=
    sound.taken.increasing.imp fun less => less.ne
  have injective := List.Pairwise.forall_of_forall_of_flip
    (R := fun a b : Barrier => a.generation = b.generation → a = b) (fun a _ _ => rfl)
    (apart.imp fun ne eq => absurd eq ne) (apart.imp fun ne eq => absurd eq.symm ne)
  have eq := injective last.1 last'.1 (generation.trans (same.trans generation'.symm))
  exact differ (congrArg Barrier.round eq)

end Sound

/-- How rounds are opened and closed, between two states of a run. -/
structure OneBarrierEach (mid later : World) : Prop where
  /-- One handler at a time holds the slot. -/
  unique : ∀ a b, mid.Holds a → mid.Holds b → a = b
  /-- The slot is free as soon as its holder has ended. -/
  released : mid.rounds.inFlight.isSome ↔ ∃ id, mid.Holds id
  /-- What is asked of the coordinator is asked by the holder, or was by a dropped handler. -/
  asked : ∀ request ∈ mid.queue, ∀ id, request.replyTo? = some id →
    mid.Holds id ∨ mid.IsDropped id
  /-- A round that is no longer the current one has an outcome, -/
  settled : ∀ r < mid.rounds.installed, mid.rounds.outcomes r = none → mid.rounds.current = some r
  /-- and keeps it. -/
  kept : ∀ r outcome, mid.rounds.outcomes r = some outcome → later.rounds.outcomes r = some outcome
  /-- A second barrier is only taken for a round if the first one's handler was dropped. -/
  once : mid.barriers.Pairwise fun earlier later => earlier.round = later.round →
    mid.IsDropped earlier.holder
  /-- A round is closed with the generation of the last barrier taken for it, -/
  published : ∀ r close, mid.rounds.outcomes r = some (some close) → ∃ barrier,
    mid.LastBarrier barrier ∧ barrier.round = r ∧ barrier.generation = close.generation
  /-- which no other round is closed with. -/
  apart : ∀ r s close other, mid.rounds.outcomes r = some (some close) →
    mid.rounds.outcomes s = some (some other) → r ≠ s → close.generation ≠ other.generation

theorem one_barrier_each {actions more : List Action} {mid later : World}
    (ran : Steps.run World.step {} actions = some mid)
    (on : Steps.run World.step mid more = some later) : mid.OneBarrierEach later := by
  have sound : mid.Sound := Sound.init.run ran
  constructor
  case unique => exact sound.slot.unique
  case released => exact sound.slot.held
  case asked => exact fun request member id asked => sound.holder_of_request member asked
  case settled => exact sound.slot.numbered.settled
  case kept => exact fun r outcome set_ => sound.outcome_run on set_
  case once => exact sound.taken.once
  case published => exact sound.taken.published
  case apart =>
    exact fun r s close other closed closed' differ =>
      sound.generation_injective closed closed' differ

/-- Two members form a group. -/
def twoJoin : List Action :=
  let join (id : Nat) : Action := .arrive id none "consumer" [("range", [])] 1000 10000 false
  [join 0, join 1, .advance 0, .serve true] ++ List.replicate 6 (.advance 0) ++
    List.replicate 4 (.advance 1) ++ [.tick 1000, .advance 0, .advance 0, .serve true, .advance 0,
      .serve true, .advance 0, .advance 0, .advance 0, .notified 1, .advance 1, .advance 1]

/-- One of them rejoins and a third one joins. The rejoined one's handler is dropped while it
closes the round, the other one leaves, and the third one's handler closes the round again. -/
def closedTwice : List Action :=
  [.arrive 2 (some "member-0") "consumer" [("range", [])] 1000 10000 false, .advance 2,
    .serve true] ++ List.replicate 8 (.advance 2) ++
  [.arrive 3 none "consumer" [("range", [])] 1000 10000 false] ++ List.replicate 6 (.advance 3) ++
  [.tick 2000, .advance 2, .advance 2, .serve true, .drop 2, .leave ["member-1"], .serve true,
    .advance 3, .advance 3, .serve true]

theorem one_barrier_each_dropped : ∃ mid later,
    Steps.run World.step {} twoJoin = some mid ∧ Steps.run World.step mid closedTwice = some later ∧
    mid.OneBarrierEach later := by
  have whole : (Steps.run World.step {} (twoJoin ++ closedTwice)).isSome := by decide +kernel
  rw [Steps.run_append] at whole
  obtain ⟨later, whole⟩ := Option.isSome_iff_exists.mp whole
  obtain ⟨mid, ran, on⟩ := Option.bind_eq_some_iff.mp whole
  exact ⟨mid, later, ran, on, one_barrier_each ran on⟩

/-- A handler that is dropped while its barrier is on its way gives back the slot, and the
coordinator takes a second barrier for the same round. -/
theorem two_barriers_a_round : ∃ world,
    Steps.run World.step {} (twoJoin ++ closedTwice) = some world ∧
    ¬ world.barriers.Pairwise fun earlier later => earlier.round ≠ later.round := by
  have taken : (Steps.run World.step {} (twoJoin ++ closedTwice)).map (·.barriers) =
      some [⟨0, 0, 1⟩, ⟨1, 2, 2⟩, ⟨1, 3, 3⟩] := by decide +kernel
  obtain ⟨world, ran, barriers⟩ := Option.map_eq_some_iff.mp taken
  refine ⟨world, ran, ?_⟩
  rw [barriers]
  decide

end World

end JoinGroup

end Oqueue
