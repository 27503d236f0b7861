import Mathlib.Data.Prod.Lex
import Oqueue.Group.JoinAnswers
import Oqueue.Group.JoinLock

/-!
# A published round reaches its members

Once its round is published, every step of a handler brings it nearer to its answer. What it
waits for is the mutex, which is given back after a known number of steps; the requests before
its own; or the slot, which it waits for no longer than a fixed time.
-/

namespace Oqueue

namespace JoinGroup

/-- How many steps at most a handler takes to its answer, once its round is published. -/
def Place.distance : Place → Nat
  | .answered (.success _) => 0
  | .registering _ => 1
  | .looking _ | .checking _ _ | .lapsed _ => 2
  | .repruning _ | .claiming _ _ _ _ | .persisting _ _ (some _) => 3
  | .claimWaiting _ _ _ _ _ | .parked _ _ | .persisting _ _ none => 4
  | .pruning _ _ rest => 4 + rest.length
  | _ => 5

/-- The places at which an answer of the transitions actor is awaited. -/
def Place.asking : Place → Bool
  | .opening _ _ _ none | .closing _ none | .persisting _ _ none => true
  | _ => false

theorem distance_tried (wait : Wait) (early : Bool) : (Place.tried wait early).distance = 2 := by
  cases early <;> rfl

theorem distance_heard (answer : Except Error GroupRecord) (place : Place) :
    (place.heard answer).distance = place.distance := by
  unfold Place.heard
  split <;> rfl

theorem distance_stored (lands : Bool) (place : Place) :
    (place.stored lands).distance ≤ place.distance := by
  unfold Place.stored
  split
  · exact Nat.le_succ 3
  · exact le_rfl

theorem not_abandoned {rounds : Rounds} {r : Nat} {close : RoundClose}
    (published : rounds.outcomes r = some (some close)) : ¬ Abandoned rounds (some r) := by
  intro abandoned
  cases published.symm.trans (abandoned r rfl)

/-- A handler whose round is published only walks towards its answer. -/
theorem Walk.nears {self : World} {place place' : Place} (walk : Walk self place place')
    {r : Nat} {close : RoundClose} (published : self.rounds.outcomes r = some (some close))
    (fits : place.Fits self.rounds (some r)) : place'.distance < place.distance := by
  have told {wait : Wait} {outcome : Option RoundClose} (waits : some r = some wait.round)
      (set_ : self.rounds.outcomes wait.round = some outcome) :
      (Place.told outcome).distance = 1 := by
    cases waits
    cases published.symm.trans set_
    rfl
  have settled {wait : Wait} (waits : some r = some wait.round)
      (unset : self.rounds.outcomes wait.round = none) : False := by
    cases waits
    cases published.symm.trans unset
  cases walk with
  | waits | replans | notOpened => exact absurd fits (not_abandoned published)
  | hears set_ | checkHears set_ | lapseHears set_ =>
    rw [told fits set_]
    exact Nat.one_lt_two
  | looks unset | parks unset | lapses unset | triesAgain unset | claimWaits unset =>
    exact (settled fits unset).elim
  | unpruned | retries | wakes | expires => simp [Place.distance]
  | keeps | strikes => simp [Place.distance]
  | notMine | givesUp =>
    rw [distance_tried]
    simp [Place.distance]

theorem asking_of_free {place : Place} (free : place.holdsSlot = false) :
    place.asking = false := by
  cases place <;> first | rfl | cases free

theorem Walk.asking {self : World} {place place' : Place} (walk : Walk self place place') :
    place'.asking = false := by
  cases walk with
  | replans => exact asking_of_free (replanned_free _ _)
  | hears | checkHears | lapseHears => exact asking_of_free (told_free _)
  | notMine | givesUp => exact asking_of_free (tried_free _ _)
  | _ => rfl

namespace Moves

variable {self : World} {id : Nat} {handler : Handler} {effect : Effect}

theorem pruning_nears (moved : Moves self id handler effect)
    (prunes : handler.place.prunes = true) :
    effect.place.distance < handler.place.distance := by
  obtain ⟨wait, kept, rest, at_⟩ := Place.prunes_eq_true.mp prunes
  cases moved with
  | walks walk =>
    rw [at_] at walk ⊢
    cases walk <;> simp [World.still, Place.distance]
  | leaves leaving =>
    rw [at_] at leaving
    cases leaving
  | rosterDead at_ | rechecks at_ =>
    rw [at_]
    simp [World.still, Place.distance]
  | refuses at' | opens at' | enrols at' | fills at' | installs at' | publishes at' | stale at'
  | abandons at' | locks at' | claims at' | withdraws at' | registers at' =>
    cases at_.symm.trans at'

/-- No step of a handler whose round is published leads it away from its answer. -/
theorem nears (moved : Moves self id handler effect) (suits : handler.place.Suits self.rounds)
    {r : Nat} {close : RoundClose} (published : self.rounds.outcomes r = some (some close))
    (enrolled : handler.enrolled = some r)
    (fits : handler.place.Fits self.rounds handler.enrolled)
    (careful : handler.place.Careful self.rounds) :
    effect.enrolled = some r ∧ effect.place.distance < handler.place.distance := by
  have onwards := moved
  rw [enrolled] at fits
  have unabandoned := not_abandoned published
  have closed {purpose : Purpose} (waits : some r = some purpose.round)
      (current : self.rounds.current = some purpose.round) : False := by
    cases waits
    cases published.symm.trans (Rounds.outcome_of_current current)
  cases moved with
  | walks walk => exact ⟨enrolled, walk.nears published fits⟩
  | refuses at_ | opens at_ | enrols at_ | fills at_ | installs at_ =>
    rw [at_] at fits
    exact absurd fits unabandoned
  | leaves leaving =>
    refine ⟨enrolled, ?_⟩
    generalize handler.place = before at leaving fits suits careful
    cases leaving with
    | opened | openFailed => exact absurd fits unabandoned
    | persisted => simp [World.still, Place.distance]
    | lost => cases careful
    | persistTried =>
      simp only [World.still, distance_tried]
      exact Nat.lt_succ_self 2
    | abandoned | abandonTried =>
      cases (show some r = _ from fits)
      cases published.symm.trans suits
  | publishes at_ | stale at_ | abandons at_ =>
    rw [at_] at fits suits
    exact (closed fits suits).elim
  | locks at_ free found =>
    rw [at_] at fits
    cases (show some r = _ from fits)
    unfold Rounds.awaited at found
    split at found
    · cases found
    · split at found
      · rename_i isOwn
        obtain ⟨same, unset⟩ := Rounds.isOwnOpenRound_iff.mp isOwn
        rw [same, published] at unset
        cases unset
      · cases found
  | rosterDead at_ | rechecks at_ => exact ⟨enrolled, onwards.pruning_nears (by rw [at_]; rfl)⟩
  | claims at_ free isOpen same =>
    rw [at_] at fits
    cases (show some r = _ from fits)
    rw [← same, isOpen.2] at published
    cases published
  | withdraws at_ =>
    rw [at_] at fits careful
    cases (show some r = _ from fits)
    exact absurd published (careful close)
  | registers at_ =>
    rw [at_]
    exact ⟨enrolled, Nat.one_pos⟩

theorem asking (moved : Moves self id handler effect) (suits : handler.place.Suits self.rounds)
    (awaits : effect.place.asking = true) :
    ∃ request ∈ effect.asked, request.replyTo? = some id := by
  cases moved with
  | opens | fills | publishes | claims => exact ⟨_, List.mem_singleton_self _, rfl⟩
  | walks walk => cases walk.asking.symm.trans awaits
  | leaves leaving => cases (asking_of_free leaving.holdsSlot.2).symm.trans awaits
  | stale at_ needed =>
    rw [at_] at suits
    rw [← Rounds.current_eq_none] at needed
    cases needed.symm.trans suits
  | _ => cases awaits

end Moves

namespace World

variable {self next : World} {action : Action} {id : Nat} {handler : Handler} {effect : Effect}

/-- Whoever awaits an answer has its request in the queue. -/
def Asked (self : World) : Prop := ∀ id handler, self.handlers id = some handler →
  handler.place.asking = true → ∃ request ∈ self.queue, request.replyTo? = some id

namespace Asked

theorem after (asked : self.Asked) (found : self.handlers id = some handler)
    (moved : Moves self id handler effect) (suits : handler.place.Suits self.rounds) :
    (self.after id handler effect).Asked := by
  intro other handler' found' awaits
  by_cases eq : other = id
  · subst eq
    cases handlers_after_self.symm.trans found'
    obtain ⟨request, among, mine⟩ := moved.asking suits awaits
    exact ⟨request, List.mem_append_right _ among, mine⟩
  · rw [handlers_after_of_ne eq] at found'
    obtain ⟨request, among, mine⟩ := asked other handler' found' awaits
    exact ⟨request, List.mem_append_left _ among, mine⟩

theorem drops (asked : self.Asked) {rounds : Rounds} :
    (self.after id handler { self.still handler .dropped with rounds }).Asked := by
  intro other handler' found' awaits
  by_cases eq : other = id
  · subst eq
    cases handlers_after_self.symm.trans found'
    cases awaits
  · rw [handlers_after_of_ne eq] at found'
    obtain ⟨request, among, mine⟩ := asked other handler' found' awaits
    exact ⟨request, List.mem_append_left _ among, mine⟩

/-- The oldest request is answered, and whoever awaited it does so no longer. -/
theorem serves (asked : self.Asked) (queued : self.QueueSound) {request : Request}
    {queue : List Request} {change : Place → Place} (first : self.queue = request :: queue)
    (handlers : next.handlers = JoinGroup.hearing self.handlers request.replyTo? change)
    (rest : next.queue = queue)
    (answered : ∀ place, request.Matches place → (change place).asking = false) :
    next.Asked := by
  intro id after found awaits
  rw [handlers] at found
  obtain ⟨handler, before, rfl⟩ := Option.map_eq_some_iff.mp found
  by_cases told : request.replyTo? = some id
  · obtain ⟨handler', found', matched⟩ :=
      queued.awaited request (first ▸ List.mem_cons_self ..) id told
    cases before.symm.trans found'
    rw [if_pos told] at awaits
    cases (answered _ matched).symm.trans awaits
  · rw [if_neg told] at awaits
    obtain ⟨other, among, mine⟩ := asked id handler before awaits
    rw [first] at among
    rcases List.mem_cons.mp among with rfl | among
    · exact absurd mine told
    · exact ⟨other, rest ▸ among, mine⟩

theorem step (asked : self.Asked) (slot : self.SlotSound) (queued : self.QueueSound)
    (stepped : Stepped self action next) : next.Asked := by
  have heard {event : GroupEvent} {replyTo round : Option Nat} (answer : Except Error GroupRecord)
      (place : Place) (matched : (Request.transition event replyTo round).Matches place) :
      (place.heard answer).asking = false := by
    cases matched <;> rfl
  cases stepped with
  | ticks => exact asked
  | arrives new unenrolled place acted =>
    intro other handler' found' awaits
    dsimp only at found'
    rename_i id minted handler
    by_cases eq : other = id
    · subst eq
      rw [Function.update_self] at found'
      cases found'
      rcases place with ⟨_, _, at_⟩ | ⟨_, at_⟩ <;> rw [at_] at awaits <;> cases awaits
    · rw [Function.update_of_ne eq] at found'
      exact asked other handler' found' awaits
  | moves found moved => exact asked.after found moved (slot.suits _ _ found)
  | drops =>
    rw [goTo_eq]
    exact asked.drops
  | dropsHolder =>
    rw [releaseSlot_goTo]
    exact asked.drops
  | accepts first taken => exact asked.serves queued first rfl rfl (heard _)
  | rejects first => exact asked.serves queued first rfl rfl (heard _)
  | stores first =>
    refine asked.serves queued first rfl rfl fun place matched => ?_
    cases matched <;> rfl
  | foreign =>
    intro other handler' found' awaits
    obtain ⟨request, among, mine⟩ := asked other handler' found' awaits
    exact ⟨request, List.mem_append_left _ among, mine⟩

theorem init : World.Asked {} := by
  intro id handler found
  cases found

theorem run {actions : List Action} (ran : Steps.run World.step {} actions = some self) :
    self.Asked := by
  refine Steps.run_history (fun _ world => world.Asked) .init ?_ ran
  intro before mid action next ran_mid asked stepped
  have sound := Sound.init.run ran_mid
  exact asked.step sound.slot sound.queued (step_stepped stepped)

end Asked

/-- How far from its release the mutex is. -/
def lockedFor (self : World) : Nat :=
  ((self.lock.bind self.handlers).map fun handler => handler.place.distance).getD 0

/-- What is left before a handler that stands here can take its next step. -/
def blockedFor (self : World) (id : Nat) : Place → Nat
  | .repruning _ | .claiming _ _ _ _ | .persisting _ _ (some _) => self.lockedFor
  | .claimWaiting _ _ _ waitingUntil _ => waitingUntil - self.now
  | .persisting _ _ none => self.queue.findIdx fun request => request.replyTo? == some id
  | _ => 0

/-- The steps of the handler's own to its answer, and what is left before the next of them. -/
def distance (self : World) (id : Nat) (handler : Handler) : ℕ ×ₗ ℕ :=
  toLex (handler.place.distance, self.blockedFor id handler.place)

theorem distance_lt_of_nearer {after : Handler}
    (nearer : after.place.distance < handler.place.distance) :
    next.distance id after < self.distance id handler :=
  Prod.Lex.toLex_lt_toLex.mpr (.inl nearer)

theorem distance_lt_of_unblocked
    (less : next.blockedFor id handler.place < self.blockedFor id handler.place) :
    next.distance id handler < self.distance id handler :=
  Prod.Lex.toLex_lt_toLex.mpr (.inr ⟨rfl, less⟩)

/-- Some step, and none that lets a member be refused, brings the handler nearer to its
answer. -/
def Nears (self : World) (id : Nat) (handler : Handler) : Prop :=
  ∃ action next after, self.step action = some next ∧ ¬ Slips self action ∧
    next.handlers id = some after ∧ next.distance id after < self.distance id handler

theorem advance_stepped (found : self.handlers id = some handler) :
    self.step (.advance id) = self.advance id handler := by
  simp [step, found]

theorem advance_pruning {wait : Wait} {kept rest : List String}
    (at_ : handler.place = .pruning wait kept rest) :
    ∃ next, self.advance id handler = some next := by
  unfold advance
  rw [at_]
  cases rest with
  | nil => exact ⟨_, rfl⟩
  | cons memberId rest =>
    dsimp only
    split <;> exact ⟨_, rfl⟩

/-- The handler that holds the mutex can go on, and so brings its release nearer. -/
theorem LockSound.releases (locked : self.LockSound) (slot : self.SlotSound) {holder : Nat}
    (held : self.lock = some holder) :
    ∃ next, self.step (.advance holder) = some next ∧ ¬ Slips self (.advance holder) ∧
      next.lockedFor < self.lockedFor ∧ ∀ id ≠ holder, next.handlers id = self.handlers id := by
  obtain ⟨handler, found, prunes⟩ := (locked holder).mp held
  obtain ⟨wait, kept, rest, at_⟩ := Place.prunes_eq_true.mp prunes
  obtain ⟨next, stepped⟩ := @advance_pruning self holder handler _ _ _ at_
  obtain ⟨effect, moved, rfl⟩ := advance_moves stepped
  have nearer := moved.pruning_nears prunes
  have before : self.lockedFor = handler.place.distance := by
    simp [lockedFor, held, found]
  refine ⟨_, (advance_stepped found).trans stepped, ?_, ?_, fun _ => handlers_after_of_ne⟩
  · rintro (⟨acted, -⟩ | ⟨_, _, _, _, _, _, _, acted, found', closing, -⟩)
    · cases acted
    · cases acted
      cases found.symm.trans found'
      cases at_.symm.trans closing
  · rw [before]
    rcases moved.lock (slot.suits _ _ found) with ⟨lock, -⟩ | ⟨free, -⟩ | ⟨-, lock, -⟩
    · have after : (self.after holder handler effect).lockedFor = effect.place.distance := by
        simp [lockedFor, World.after, lock, held]
      rwa [after]
    · cases free.symm.trans held
    · have after : (self.after holder handler effect).lockedFor = 0 := by
        simp [lockedFor, World.after, lock]
      rw [after]
      exact Nat.zero_lt_of_lt nearer

theorem LockSound.nears_of_locked (locked : self.LockSound) (slot : self.SlotSound)
    (found : self.handlers id = some handler)
    (blocked : ∀ world : World, world.blockedFor id handler.place = world.lockedFor)
    (looks : handler.place.prunes = false) (own : self.lock = none → self.Nears id handler) :
    self.Nears id handler := by
  rcases Option.eq_none_or_eq_some self.lock with free | ⟨holder, held⟩
  · exact own free
  · obtain ⟨next, stepped, careful, nearer, others⟩ := locked.releases slot held
    have other : id ≠ holder := by
      rintro rfl
      obtain ⟨handler', found', prunes⟩ := (locked id).mp held
      cases found.symm.trans found'
      cases looks.symm.trans prunes
    refine ⟨_, next, handler, stepped, careful, (others id other).trans found, ?_⟩
    refine distance_lt_of_unblocked ?_
    rw [blocked, blocked]
    exact nearer

theorem nears_parked (found : self.handlers id = some handler) {wait : Wait} {nextCheck : Nat}
    (at_ : handler.place = .parked wait nextCheck) {outcome : Option RoundClose}
    (settled : self.rounds.outcomes wait.round = some outcome) : self.Nears id handler := by
  have stepped : self.step (.notified id) = some (self.goTo id handler (.looking wait)) := by
    simp [step, found, at_, settled]
  refine ⟨_, _, _, stepped, ?_, Function.update_self .., ?_⟩
  · rintro (⟨acted, -⟩ | ⟨_, _, _, _, _, _, _, acted, -⟩) <;> cases acted
  · refine distance_lt_of_nearer ?_
    rw [at_]
    exact show 2 < 4 by decide

/-- The wait for the slot ends when it is released or in time. -/
theorem nears_claimWaiting (found : self.handlers id = some handler) {wait : Wait} {early : Bool}
    {left waitingUntil slot : Nat}
    (at_ : handler.place = .claimWaiting wait early left waitingUntil slot)
    (own : (∃ next, self.advance id handler = some next) → self.Nears id handler) :
    self.Nears id handler := by
  by_cases waits : self.rounds.inFlight = some slot ∧ self.now < waitingUntil
  · have stepped : self.step (.tick waitingUntil) = some { self with now := waitingUntil } := by
      simp [step, waits.2.le]
    refine ⟨_, _, handler, stepped, ?_, found, ?_⟩
    · rintro (⟨acted, -⟩ | ⟨_, _, _, _, _, _, _, acted, -⟩) <;> cases acted
    · refine distance_lt_of_unblocked ?_
      rw [at_]
      simp [blockedFor, waits.2]
  · refine own ?_
    unfold advance
    rw [at_]
    dsimp only
    split
    · split <;> exact ⟨_, rfl⟩
    · rename_i held
      rw [if_pos (by simpa [not_not.mp held] using waits)]
      exact ⟨_, rfl⟩

theorem serve_queue (self : World) (request : Request) (lands : Bool) :
    (self.serve request lands).queue = self.queue := by
  unfold serve
  cases request with
  | transition event replyTo round =>
    dsimp only
    split
    · rw [deliver_eq]
    · cases lands <;> simp [deliver_eq]
  | roster snapshot replyTo =>
    dsimp only
    split
    · split <;> cases lands <;> rfl
    · cases lands <;> rfl

/-- A request is no concern of a handler that did not ask it. -/
theorem handlers_serve_of_ne {request : Request} (other : request.replyTo? ≠ some id)
    (lands : Bool) : (self.serve request lands).handlers id = self.handlers id := by
  have unheard {world : World} {replyTo : Option Nat} (answer : Except Error GroupRecord)
      (same : world.handlers = self.handlers) (other : replyTo ≠ some id) :
      (world.deliver replyTo answer).handlers id = self.handlers id := by
    rw [deliver_eq, ← same]
    simp [hearing, other]
  unfold serve
  cases request with
  | transition event replyTo round =>
    dsimp only
    split
    · exact unheard _ rfl other
    · split
      · exact unheard _ rfl other
      · exact unheard _ rfl other
  | roster snapshot replyTo =>
    have kept : (if lands = true then { self with roster := some snapshot } else self :
        World).handlers = self.handlers := by
      cases lands <;> rfl
    have other : id ≠ replyTo := fun same => other (congrArg some same.symm)
    dsimp only
    split
    · split
      · simp only [goTo, setHandler, Function.update_of_ne other, kept]
      · rw [kept]
    · rw [kept]

theorem handlers_serve_roster {snapshot : GroupRosterSnapshot} {purpose : Purpose}
    {close : RoundClose} (found : self.handlers id = some handler)
    (at_ : handler.place = .persisting purpose close none) (lands : Bool) :
    (self.serve (.roster snapshot id) lands).handlers id =
      some { handler with place := .persisting purpose close (some lands) } := by
  cases lands <;> simp [serve, found, at_, goTo, setHandler]

/-- The actor comes nearer to a roster that waits in its queue, or stores it. -/
theorem nears_persisting (queued : self.QueueSound) (asked : self.Asked)
    (found : self.handlers id = some handler) {purpose : Purpose} {close : RoundClose}
    (at_ : handler.place = .persisting purpose close none) : self.Nears id handler := by
  obtain ⟨mine, among, replies⟩ := asked id handler found (by rw [at_]; rfl)
  cases first : self.queue with
  | nil =>
    rw [first] at among
    cases among
  | cons request queue =>
    have stepped : self.step (.serve true) =
        some (({ self with queue } : World).serve request true) := by
      simp [step, first]
    have careful : ¬ Slips self (.serve true) := by
      rintro (⟨acted, -⟩ | ⟨_, _, _, _, _, _, _, acted, -⟩) <;> cases acted
    by_cases told : request.replyTo? = some id
    · obtain ⟨handler', found', matched⟩ :=
        queued.awaited request (first ▸ List.mem_cons_self ..) id told
      cases found.symm.trans found'
      rw [at_] at matched
      cases matched
      cases told
      have stored := @handlers_serve_roster { self with queue } _ _ ‹_› _ _ found at_ true
      refine ⟨_, _, _, stepped, careful, stored, ?_⟩
      refine distance_lt_of_nearer ?_
      rw [at_]
      exact show 3 < 4 by decide
    · refine ⟨_, _, handler, stepped, careful, (handlers_serve_of_ne told true).trans found, ?_⟩
      refine distance_lt_of_unblocked ?_
      rw [at_]
      simp [blockedFor, serve_queue, first, List.findIdx_cons, beq_eq_false_iff_ne.mpr told]

theorem not_slips_advance (found : self.handlers id = some handler)
    (elsewhere : ∀ purpose answer, handler.place ≠ .closing purpose answer) :
    ¬ Slips self (.advance id) := by
  rintro (⟨acted, -⟩ | ⟨_, _, _, _, _, _, _, acted, found', closing, -⟩)
  · cases acted
  · cases acted
    cases found.symm.trans found'
    exact elsewhere _ _ closing

/-- Everyone listed in a round is one of its handlers' members; every answer to one of them is
the round's; nobody else is answered with the round; and a handler that is not answered yet
can come nearer to its answer, its own steps do bring it nearer, and no step but its end leads
it away. -/
structure Agrees (world : World) : Prop where
  heard : ∀ r close, world.rounds.outcomes r = some (some close) → ∀ member ∈ close.members,
    ∃ id handler, world.handlers id = some handler ∧ handler.member = member ∧
      handler.enrolled = some r
  answered : ∀ id handler r close answer, world.handlers id = some handler →
    handler.enrolled = some r → world.rounds.outcomes r = some (some close) →
    handler.place = .answered answer → answer = .success close ∧ handler.member ∈ close.members
  truthful : ∀ id handler close, world.handlers id = some handler →
    handler.place = .answered (.success close) → ∃ r, handler.enrolled = some r ∧
      world.rounds.outcomes r = some (some close) ∧ handler.member ∈ close.members
  progress : ∀ id handler r close, world.handlers id = some handler →
    handler.enrolled = some r → world.rounds.outcomes r = some (some close) →
    handler.place ≠ .dropped → handler.place ≠ .answered (.success close) →
    world.Nears id handler
  steady : ∀ id handler r close, world.handlers id = some handler →
    handler.enrolled = some r → world.rounds.outcomes r = some (some close) →
    ∀ action next, world.step action = some next → action ≠ .drop id →
      ∃ after, next.handlers id = some after ∧ after.enrolled = some r ∧
        after.place.distance ≤ handler.place.distance ∧
        (action = .advance id → after.place.distance < handler.place.distance)

namespace AnswersSound

theorem advances (answers : self.AnswersSound) (slot : self.SlotSound)
    (found : self.handlers id = some handler) {r : Nat} (enrolled : handler.enrolled = some r)
    {close : RoundClose} (published : self.rounds.outcomes r = some (some close))
    (stepped : self.step (.advance id) = some next) :
    ∃ after, next.handlers id = some after ∧ after.enrolled = some r ∧
      after.place.distance < handler.place.distance := by
  rw [advance_stepped found] at stepped
  obtain ⟨effect, moved, rfl⟩ := advance_moves stepped
  exact ⟨_, handlers_after_self, moved.nears (slot.suits _ _ found) published enrolled
    (answers.fits _ _ found) (answers.careful _ _ found)⟩

/-- No step but the end of its connection leads it away from its answer. -/
theorem steady (answers : self.AnswersSound) (slot : self.SlotSound)
    (found : self.handlers id = some handler) {r : Nat} (enrolled : handler.enrolled = some r)
    {close : RoundClose} (published : self.rounds.outcomes r = some (some close))
    (stepped : self.step action = some next) (there : action ≠ .drop id) :
    ∃ after, next.handlers id = some after ∧ after.enrolled = some r ∧
      after.place.distance ≤ handler.place.distance := by
  have unheard {world : World} (same : world.handlers id = self.handlers id) :
      ∃ after, world.handlers id = some after ∧ after.enrolled = some r ∧
        after.place.distance ≤ handler.place.distance :=
    ⟨handler, same.trans found, enrolled, le_rfl⟩
  have hears {world : World} {replyTo : Option Nat} {change : Place → Place}
      (nearer : ∀ place : Place, (change place).distance ≤ place.distance)
      (handlers : world.handlers = hearing self.handlers replyTo change) :
      ∃ after, world.handlers id = some after ∧ after.enrolled = some r ∧
        after.place.distance ≤ handler.place.distance := by
    rw [handlers]
    by_cases told : replyTo = some id
    · exact ⟨{ handler with place := change handler.place },
        by simp [hearing, found, told], enrolled, nearer _⟩
    · exact ⟨handler, by simp [hearing, found, told], enrolled, le_rfl⟩
  cases step_stepped stepped with
  | ticks | foreign => exact unheard rfl
  | arrives new =>
    exact ⟨handler, handlers_arrived new found, enrolled, le_rfl⟩
  | moves found' moved =>
    rename_i other _ _ _
    by_cases eq : id = other
    · subst eq
      cases found.symm.trans found'
      obtain ⟨same, nearer⟩ := moved.nears (slot.suits _ _ found) published enrolled
        (answers.fits _ _ found) (answers.careful _ _ found)
      exact ⟨_, handlers_after_self, same, nearer.le⟩
    · exact unheard (handlers_after_of_ne eq)
  | drops _ _ _ dropped | dropsHolder _ _ _ _ dropped =>
    refine unheard (Function.update_of_ne ?_ ..)
    rintro rfl
    exact there dropped
  | accepts | rejects => exact hears (fun place => (distance_heard _ place).le) rfl
  | stores => exact hears (fun place => distance_stored _ place) rfl

theorem nears_of_advance (answers : self.AnswersSound) (slot : self.SlotSound)
    (found : self.handlers id = some handler) {r : Nat} (enrolled : handler.enrolled = some r)
    {close : RoundClose} (published : self.rounds.outcomes r = some (some close))
    (elsewhere : ∀ purpose answer, handler.place ≠ .closing purpose answer)
    (enabled : ∃ next, self.advance id handler = some next) : self.Nears id handler := by
  obtain ⟨next, stepped⟩ := enabled
  have stepped := (advance_stepped found).trans stepped
  obtain ⟨after, found', -, nearer⟩ := answers.advances slot found enrolled published stepped
  exact ⟨_, next, after, stepped, not_slips_advance found elsewhere, found',
    distance_lt_of_nearer nearer⟩

/-- A handler whose round is published can come nearer to its answer: by a step of its own, or
by one that it waits for. -/
theorem progress (answers : self.AnswersSound) (sound : self.Sound) (locked : self.LockSound)
    (asked : self.Asked) (found : self.handlers id = some handler) {r : Nat}
    (enrolled : handler.enrolled = some r) {close : RoundClose}
    (published : self.rounds.outcomes r = some (some close))
    (living : handler.place ≠ .dropped) (unanswered : handler.place ≠ .answered (.success close)) :
    self.Nears id handler := by
  have fits := answers.fits id handler found
  have suits := sound.slot.suits id handler found
  have careful := answers.careful id handler found
  rw [enrolled] at fits
  have elsewhere : ∀ purpose answer, handler.place ≠ .closing purpose answer := by
    intro purpose answer at_
    rw [at_] at fits suits
    cases (show some r = _ from fits)
    cases published.symm.trans (Rounds.outcome_of_current suits)
  have own := answers.nears_of_advance sound.slot found enrolled published elsewhere
  have mutex (takes : self.lock = none → ∃ next, self.advance id handler = some next)
      (blocked : ∀ world : World, world.blockedFor id handler.place = world.lockedFor)
      (looks : handler.place.prunes = false) : self.Nears id handler :=
    locked.nears_of_locked sound.slot found blocked looks fun free => own (takes free)
  generalize stands : handler.place = place at fits suits careful living unanswered
  cases place with
  | planning | slotWaiting | opening | opened => exact absurd fits (not_abandoned published)
  | closing purpose answer => exact absurd stands (elsewhere _ _)
  | abandoned purpose =>
    cases (show some r = _ from fits)
    cases published.symm.trans suits
  | withdrawing wait =>
    cases (show some r = _ from fits)
    exact absurd published (careful close)
  | dropped => exact absurd rfl living
  | answered answer =>
    cases answer with
    | refused errorCode => exact absurd fits (not_abandoned published)
    | success given =>
      obtain ⟨_, same, set_⟩ := fits
      cases same
      cases published.symm.trans set_
      exact absurd rfl unanswered
  | registering given => exact own (by simp [advance, stands])
  | looking wait | checking wait | lapsed wait =>
    cases (show some r = _ from fits)
    exact own (by simp [advance, stands, published])
  | pruning wait kept rest => exact own (advance_pruning stands)
  | repruning wait | claiming wait early left waitingUntil =>
    refine mutex ?_ (by simp [stands, blockedFor]) (by rw [stands]; rfl)
    exact fun free => by simp [advance, stands, World.locked, free]
  | claimWaiting wait early left waitingUntil slot =>
    exact nears_claimWaiting found stands own
  | parked wait nextCheck =>
    cases (show some r = _ from fits)
    exact nears_parked found stands published
  | persisting purpose given answer =>
    cases answer with
    | some kept =>
      refine mutex ?_ (by simp [stands, blockedFor]) (by rw [stands]; rfl)
      exact fun free => by simp [advance, stands, World.locked, free]
    | none => exact nears_persisting sound.queued asked found stands

theorem agrees (answers : self.AnswersSound) (sound : self.Sound) (locked : self.LockSound)
    (asked : self.Asked) : self.Agrees where
  heard := fun r close published => (answers.roster.listed r close published).handled
  answered := by
    intro id handler r close answer found enrolled published at_
    have fits := answers.fits id handler found
    rw [at_] at fits
    cases answer with
    | success given =>
      obtain ⟨other, same, set_⟩ := fits
      cases enrolled.symm.trans same
      cases published.symm.trans set_
      refine ⟨rfl, (answers.roster.listed r close published).present id handler found ?_ enrolled⟩
      rw [at_]
      exact nofun
    | refused errorCode => cases published.symm.trans (fits r enrolled)
  truthful := by
    intro id handler close found at_
    have fits := answers.fits id handler found
    rw [at_] at fits
    obtain ⟨r, enrolled, published⟩ := fits
    refine ⟨r, enrolled, published, ?_⟩
    refine (answers.roster.listed r close published).present id handler found ?_ enrolled
    rw [at_]
    exact nofun
  progress := fun id handler r close found enrolled published living unanswered =>
    answers.progress sound locked asked found enrolled published living unanswered
  steady := by
    intro id handler r close found enrolled published action next stepped there
    by_cases own : action = .advance id
    · rw [own] at stepped
      obtain ⟨after, found', same, nearer⟩ :=
        answers.advances sound.slot found enrolled published stepped
      exact ⟨after, found', same, nearer.le, fun _ => nearer⟩
    · obtain ⟨after, found', same, nearer⟩ :=
        answers.steady sound.slot found enrolled published stepped there
      exact ⟨after, found', same, nearer, fun acted => absurd acted own⟩

end AnswersSound

/-- A handler that is there has arrived. -/
theorem arrived {actions : List Action} {world : World}
    (ran : Steps.run World.step {} actions = some world) (there : (world.handlers id).isSome) :
    id ∈ actions.filterMap Action.arrival := by
  refine Steps.run_history (fun before world => ∀ id, (world.handlers id).isSome →
    id ∈ before.filterMap Action.arrival) (fun _ there => by cases there) ?_ ran id there
  intro before mid action next _ arrived stepped id there
  rw [List.filterMap_append, List.mem_append]
  have kept (same : (mid.handlers id).isSome) :
      id ∈ before.filterMap Action.arrival ∨ id ∈ [action].filterMap Action.arrival :=
    .inl (arrived id same)
  have moved {other : Nat} {handler : Handler} {effect : Effect}
      (found : mid.handlers other = some handler)
      (there : ((mid.after other handler effect).handlers id).isSome) :
      id ∈ before.filterMap Action.arrival ∨ id ∈ [action].filterMap Action.arrival := by
    by_cases eq : id = other
    · exact kept (by rw [eq, found]; rfl)
    · rw [handlers_after_of_ne eq] at there
      exact kept there
  cases step_stepped stepped with
  | arrives new unenrolled place acted =>
    rename_i other _ _
    by_cases eq : id = other
    · exact .inr (List.mem_filterMap.mpr ⟨action, List.mem_singleton_self action, eq ▸ acted⟩)
    · refine kept ?_
      rw [← there]
      simp only [Function.update_of_ne eq]
  | moves found => exact moved found there
  | drops found =>
    rw [goTo_eq] at there
    exact moved found there
  | dropsHolder found =>
    rw [releaseSlot_goTo] at there
    exact moved found there
  | accepts | rejects | stores => exact kept (by simpa [hearing] using there)
  | _ => exact kept there

/-- Whoever is listed in a round is answered with it or on its way there, and nobody else is. -/
theorem members_answered {actions : List Action} {world : World}
    (ran : Steps.run World.step {} actions = some world)
    (alone : Throughout (fun world _ => world.OneLive) actions)
    (careful : Throughout (fun world action => ∀ acted ∈ action, ¬ Slips world acted) actions) :
    world.Agrees :=
  (AnswersSound.run ran alone careful).agrees (Sound.init.run ran) (LockSound.run ran)
    (Asked.run ran)

/-- A newcomer joins, and its round closes on its deadline. -/
def joinsAlone : List Action :=
  [.arrive 0 none "consumer" [("range", [])] 1000 30000 false, .advance 0, .serve true] ++
    List.replicate 6 (.advance 0) ++
  [.tick 1000, .advance 0, .advance 0, .serve true, .advance 0, .serve true, .advance 0,
    .advance 0, .advance 0]

theorem members_answered_joinsAlone : ∃ world,
    Steps.run World.step {} joinsAlone = some world ∧ world.Agrees ∧
      (world.handlers 0).map Handler.place = some (.answered (.success ⟨1, "member-0", "consumer",
        "range", [⟨"member-0", "consumer", [("range", [])], 1000⟩]⟩)) := by
  have ends : (Steps.run World.step {} joinsAlone).map (fun world =>
      (world.handlers 0).map Handler.place) = some (some (.answered (.success ⟨1, "member-0",
        "consumer", "range", [⟨"member-0", "consumer", [("range", [])], 1000⟩]⟩))) := by
    decide +kernel
  obtain ⟨world, ran, answered⟩ := Option.map_eq_some_iff.mp ends
  have only {before after : List Action} {mid : World} (split_ : joinsAlone = before ++ after)
      (ran : Steps.run World.step {} before = some mid) {id : Nat} {handler : Handler}
      (found : mid.handlers id = some handler) : id = 0 := by
    have there := arrived ran (by rw [found]; rfl)
    have among : id ∈ joinsAlone.filterMap Action.arrival := by
      rw [split_, List.filterMap_append]
      exact List.mem_append_left _ there
    simpa [joinsAlone, Action.arrival] using among
  refine ⟨world, ran, members_answered ran ?_ ?_, answered⟩
  · intro before after mid split_ ran a b first second found found' _ _ _
    rw [only split_ ran found, only split_ ran found']
  · intro before after mid split_ ran acted took slips
    rcases slips with ⟨rfl, -⟩ |
      ⟨id, handler, purpose, record, other, giving, wait, -, found, at_, found', at_', -⟩
    · have among : Action.serve false ∈ joinsAlone := by
        rw [split_]
        exact List.mem_append_right _ (List.mem_of_mem_head? took)
      simp [joinsAlone] at among
    · cases only split_ ran found
      cases only split_ ran found'
      cases found.symm.trans found'
      cases at_.symm.trans at_'

/-- The member rejoins and so fills its round. The barrier is taken, the roster is not. -/
def rosterRefused : List Action :=
  joinsAlone ++ [.arrive 1 (some "member-0") "consumer" [("range", [])] 1000 30000 false,
    .advance 1, .serve true, .advance 1, .advance 1, .advance 1, .serve true, .advance 1,
    .serve false, .advance 1]

/-- It is told that the coordinator is unavailable, and stays listed. -/
theorem members_refused : ∃ world, Steps.run World.step {} rosterRefused = some world ∧
    Throughout (fun world _ => world.OneLive) rosterRefused ∧ ¬ world.Agrees := by
  have ends : (Steps.run World.step {} rosterRefused).map (fun world =>
      ((world.handlers 1).map fun handler => (handler.place, handler.enrolled),
        world.rounds.outcomes 1)) = some (some (.answered (.refused 15), some 1),
          some (some ⟨2, "member-0", "consumer", "range",
            [⟨"member-0", "consumer", [("range", [])], 1000⟩]⟩)) := by
    decide +kernel
  obtain ⟨world, ran, ends⟩ := Option.map_eq_some_iff.mp ends
  obtain ⟨stands, outcome⟩ : _ ∧ _ := by simpa only [Prod.mk.injEq] using ends
  refine ⟨world, ran, ?_, ?_⟩
  · -- the first handler is answered before the second arrives
    have turns : ∀ before ∈ rosterRefused.inits, ∀ mid ∈ Steps.run World.step {} before,
        (mid.handlers 1).isSome → ∀ handler ∈ mid.handlers 0,
          handler.place = .answered (.success ⟨1, "member-0", "consumer", "range",
            [⟨"member-0", "consumer", [("range", [])], 1000⟩]⟩) := by
      decide +kernel
    intro before after mid split_ ran
    have among {id : Nat} {handler : Handler} (found : mid.handlers id = some handler) :
        id = 0 ∨ id = 1 := by
      have there := arrived ran (by rw [found]; rfl)
      have among : id ∈ rosterRefused.filterMap Action.arrival := by
        rw [split_, List.filterMap_append]
        exact List.mem_append_left _ there
      simpa [rosterRefused, joinsAlone, Action.arrival, eq_comm] using among
    have gone {first second : Handler} (found : mid.handlers 0 = some first)
        (found' : mid.handlers 1 = some second) : ¬ first.IsLive := fun live =>
      live.2 _ (turns before ((List.mem_inits _ _).mpr ⟨after, split_.symm⟩) mid ran
        (by rw [found']; rfl) first found)
    intro a b first second found found' live live' _
    rcases among found with rfl | rfl <;> rcases among found' with rfl | rfl
    · rfl
    · exact absurd live (gone found found')
    · exact absurd live' (gone found' found)
    · rfl
  · intro agrees
    obtain ⟨handler, found, stands⟩ := Option.map_eq_some_iff.mp stands
    obtain ⟨at_, enrolled⟩ : _ ∧ _ := by simpa only [Prod.mk.injEq] using stands
    cases (agrees.answered 1 handler 1 _ _ found enrolled outcome at_).1

end World

end JoinGroup

end Oqueue
