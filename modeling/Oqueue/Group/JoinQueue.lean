import Oqueue.Group.JoinSlot

/-!
# What the transitions actor has yet to serve

A request waits in the queue until it is served, also when its handler was dropped. The
queued barriers are all for the current round, and all but the last of them are those of
dropped handlers.
-/

namespace Oqueue

namespace JoinGroup

namespace Request

def replyTo? : Request → Option Nat
  | .transition _ replyTo _ => replyTo
  | .roster _ replyTo => some replyTo

def round? : Request → Option Nat
  | .transition _ _ round => round
  | .roster _ _ => none

def IsBarrier (self : Request) : Prop :=
  ∃ replyTo round, self = .transition .joinBarrierComplete replyTo round

/-- A request is awaited where it was asked, unless the handler was dropped there. -/
inductive Matches : Request → Place → Prop
  | opening {event event' : GroupEvent} {replyTo : Option Nat} {left waitingUntil : Nat} :
      Matches (.transition event replyTo none) (.opening left waitingUntil event' none)
  | closing {replyTo : Option Nat} {round : Nat} {purpose : Purpose} : purpose.round = round →
      Matches (.transition .joinBarrierComplete replyTo (some round)) (.closing purpose none)
  | persisting {roster : GroupRosterSnapshot} {replyTo : Nat} {purpose : Purpose}
      {close : RoundClose} : Matches (.roster roster replyTo) (.persisting purpose close none)
  | dropped {request : Request} : Matches request .dropped

theorem Matches.closes {request : Request} {place : Place} (matched : request.Matches place)
    (living : place ≠ .dropped) {round : Nat} (barrier : request.round? = some round) :
    request.IsBarrier ∧ ∃ purpose, place = .closing purpose none ∧ purpose.round = round := by
  cases matched with
  | opening => cases barrier
  | closing same =>
    cases barrier
    exact ⟨⟨_, _, rfl⟩, _, rfl, same⟩
  | persisting => cases barrier
  | dropped => exact absurd rfl living

end Request

theorem Walk.not_matches {self : World} {place place' : Place} (walk : Walk self place place')
    (request : Request) : ¬ request.Matches place := by
  intro matched
  cases walk <;> cases matched

theorem Walk.not_closing {self : World} {place place' : Place} (walk : Walk self place place')
    (purpose : Purpose) (answer : Option (Except Error GroupRecord)) :
    place' ≠ .closing purpose answer := by
  intro at_
  have holds := walk.holdsSlot
  rw [at_] at holds
  cases walk <;> first | cases at_ | cases holds

theorem Leaves.not_matches {place place' : Place} (leaves : Leaves place place')
    (request : Request) : ¬ request.Matches place := by
  intro matched
  cases leaves <;> cases matched

namespace Moves

variable {self : World} {id : Nat} {handler : Handler} {effect : Effect}

theorem not_matches (moved : Moves self id handler effect) (request : Request) :
    ¬ request.Matches handler.place := by
  cases moved with
  | walks walk => exact walk.not_matches request
  | leaves leaving free => exact leaving.not_matches request
  | refuses at_ | opens at_ | enrols at_ | fills at_ | installs at_ | publishes at_ | stale at_
  | abandons at_ | locks at_ | rosterDead at_ | rechecks at_ | claims at_ | withdraws at_
  | registers at_ =>
    rw [at_]
    intro matched
    cases matched

theorem not_dropped (moved : Moves self id handler effect) : handler.place ≠ .dropped := by
  intro dropped
  have unmatched := moved.not_matches (.roster ⟨"", "", []⟩ id)
  rw [dropped] at unmatched
  exact unmatched .dropped

theorem asks (moved : Moves self id handler effect) (suits : handler.place.Suits self.rounds) :
    effect.asked = [] ∨ ∃ request : Request, effect.asked = [request] ∧
      request.replyTo? = some id ∧ request.Matches effect.place ∧ effect.place ≠ .dropped ∧
      (request.round?.isSome → self.rounds.inFlight = none) := by
  cases moved with
  | opens at_ free needed unclaimed opening => exact .inr ⟨_, rfl, rfl, .opening, nofun, nofun⟩
  | fills at_ free based opened unclaimed electable full =>
    exact .inr ⟨_, rfl, rfl, .closing rfl, nofun, fun _ => based.inFlight.symm.trans unclaimed⟩
  | publishes at_ free isOpen => exact .inr ⟨_, rfl, rfl, .persisting, nofun, nofun⟩
  | stale at_ needed =>
    rw [at_] at suits
    rw [← Rounds.current_eq_none] at needed
    cases needed.symm.trans suits
  | claims at_ free isOpen same unclaimed =>
    exact .inr ⟨_, rfl, rfl, .closing rfl, nofun, fun _ => unclaimed⟩
  | _ => exact .inl rfl

/-- What a handler asks for, it awaits; and it asks for a barrier where no other is asked. -/
theorem asked (moved : Moves self id handler effect) (suits : handler.place.Suits self.rounds)
    {request : Request} (new : request ∈ effect.asked) :
    request.replyTo? = some id ∧ request.Matches effect.place ∧ effect.place ≠ .dropped ∧
      (request.round?.isSome → self.rounds.inFlight = none) := by
  rcases moved.asks suits with none_ | ⟨one, only, asked⟩
  · rw [none_] at new
    cases new
  · rw [only, List.mem_singleton] at new
    exact new ▸ asked

/-- A handler asks for one thing at a time. -/
theorem asked_alone (moved : Moves self id handler effect)
    (suits : handler.place.Suits self.rounds) :
    (effect.asked.filterMap Request.replyTo?).Nodup ∧
      ∀ R : Request → Request → Prop, effect.asked.Pairwise R := by
  rcases moved.asks suits with none_ | ⟨one, only, replyTo, -⟩
  · rw [none_]
    exact ⟨List.nodup_nil, fun _ => .nil⟩
  · rw [only, List.filterMap_cons_some replyTo]
    exact ⟨List.nodup_singleton id, fun R => List.pairwise_singleton R one⟩

theorem not_heard (moved : Moves self id handler effect) (suits : handler.place.Suits self.rounds)
    {purpose : Purpose} {answer : Except Error GroupRecord} :
    effect.place ≠ .closing purpose (some answer) := by
  cases moved with
  | walks walk => exact walk.not_closing _ _
  | leaves leaving free =>
    intro at_
    simp only [World.still] at at_
    have free := leaving.holdsSlot.2
    rw [at_] at free
    cases free
  | stale at_ needed =>
    rw [at_] at suits
    rw [← Rounds.current_eq_none] at needed
    cases needed.symm.trans suits
  | _ => rintro ⟨⟩

end Moves

namespace World

variable {self next : World} {action : Action} {id : Nat} {handler : Handler} {effect : Effect}

theorem heard_closing {heard answer : Except Error GroupRecord} {place : Place} {purpose : Purpose}
    (h : place.heard heard = .closing purpose (some answer)) :
    place = .closing purpose (some answer) ∨ place = .closing purpose none ∧ answer = heard := by
  unfold Place.heard at h
  split at h
  · cases h
  · cases h
    exact .inr ⟨rfl, rfl⟩
  · exact .inl h

theorem stored_closing {lands : Bool} {answer : Option (Except Error GroupRecord)} {place : Place}
    {purpose : Purpose} (h : place.stored lands = .closing purpose answer) :
    place = .closing purpose answer := by
  unfold Place.stored at h
  split at h
  · cases h
  · exact h

theorem IsDropped.hearing (dropped : self.IsDropped id) {replyTo : Option Nat}
    {change : Place → Place} (handlers : next.handlers = JoinGroup.hearing self.handlers replyTo change)
    (stays : change .dropped = .dropped) : next.IsDropped id := by
  obtain ⟨handler, found, at_⟩ := dropped
  unfold IsDropped
  rw [handlers]
  unfold JoinGroup.hearing
  rw [found]
  by_cases told : replyTo = some id
  · exact ⟨_, rfl, by simp [told, at_, stays]⟩
  · exact ⟨_, rfl, by simp [told, at_]⟩

theorem IsDropped.after (dropped : self.IsDropped id) {other : Nat}
    (found : self.handlers other = some handler) (living : handler.place ≠ .dropped) :
    (self.after other handler effect).IsDropped id := by
  obtain ⟨handler', found', at_⟩ := dropped
  by_cases same : id = other
  · subst same
    cases found.symm.trans found'
    exact absurd at_ living
  · exact ⟨handler', (handlers_after_of_ne same).trans found', at_⟩

structure QueueSound (world : World) : Prop where
  awaited : ∀ request ∈ world.queue, ∀ id, request.replyTo? = some id →
    ∃ handler, world.handlers id = some handler ∧ request.Matches handler.place
  unasked : ∀ request ∈ world.queue, request.replyTo? = none → request.round? = none
  distinct : (world.queue.filterMap Request.replyTo?).Nodup
  barrier : ∀ request ∈ world.queue, request.round?.isSome → request.IsBarrier
  tagged : ∀ request ∈ world.queue, ∀ r, request.round? = some r → world.rounds.current = some r
  ordered : world.queue.Pairwise fun earlier later => earlier.round?.isSome → later.round?.isSome →
    ∃ id, earlier.replyTo? = some id ∧ world.IsDropped id
  heard : ∀ id handler purpose answer, world.handlers id = some handler →
    handler.place = .closing purpose (some answer) → ∀ request ∈ world.queue, request.round? = none

namespace QueueSound

theorem not_replyTo (queued : self.QueueSound) (found : self.handlers id = some handler)
    (unmatched : ∀ request : Request, ¬ request.Matches handler.place) {request : Request}
    (member : request ∈ self.queue) : request.replyTo? ≠ some id := by
  intro replyTo
  obtain ⟨handler', found', matched⟩ := queued.awaited request member id replyTo
  cases found.symm.trans found'
  exact unmatched request matched

theorem holder_of_round (queued : self.QueueSound) {request : Request}
    (member : request ∈ self.queue) (barrier : request.round?.isSome) :
    ∃ id, request.replyTo? = some id ∧ (self.IsDropped id ∨ self.Holds id) := by
  cases asked : request.replyTo? with
  | none =>
    rw [queued.unasked request member asked] at barrier
    cases barrier
  | some id =>
    obtain ⟨handler, found, matched⟩ := queued.awaited request member id asked
    refine ⟨id, rfl, ?_⟩
    generalize at_ : handler.place = place at matched
    cases matched with
    | opening => cases barrier
    | closing => exact .inr ⟨handler, found, by rw [at_]; rfl⟩
    | persisting => cases barrier
    | dropped => exact .inl ⟨handler, found, at_⟩

theorem dropped_of_free (queued : self.QueueSound) (slot : self.SlotSound)
    (free : self.rounds.inFlight = none) {request : Request} (member : request ∈ self.queue)
    (barrier : request.round?.isSome) : ∃ id, request.replyTo? = some id ∧ self.IsDropped id := by
  obtain ⟨id, asked, dropped | holds⟩ := queued.holder_of_round member barrier
  · exact ⟨id, asked, dropped⟩
  · exact absurd holds (slot.free_of_none free id)

theorem tagged_after (queued : self.QueueSound) (slot : self.SlotSound)
    (found : self.handlers id = some handler) (moved : Moves self id handler effect)
    {request : Request} (member : request ∈ self.queue) {r : Nat}
    (barrier : request.round? = some r) : effect.rounds.current = some r := by
  have tagged := queued.tagged request member r barrier
  rcases moved.current_cases (slot.suits _ _ found) with same | ⟨nobody, -⟩ |
    ⟨purpose, answer, at_⟩
  · exact same.trans tagged
  · cases nobody.symm.trans tagged
  · rw [queued.heard id handler purpose answer found at_ request member] at barrier
    cases barrier

theorem moves (queued : self.QueueSound) (slot : self.SlotSound)
    (found : self.handlers id = some handler) (moved : Moves self id handler effect) :
    (self.after id handler effect).QueueSound := by
  have suits := slot.suits _ _ found
  have notMine {request : Request} (member : request ∈ self.queue) {other : Nat}
      (asked : request.replyTo? = some other) : other ≠ id := by
    intro same
    exact queued.not_replyTo found moved.not_matches member (same ▸ asked)
  obtain ⟨nodup, alone⟩ := moved.asked_alone suits
  constructor
  · intro request member other asked
    rcases List.mem_append.mp member with before | new
    · obtain ⟨handler', found', matched⟩ := queued.awaited request before other asked
      exact ⟨handler', (handlers_after_of_ne (notMine before asked)).trans found', matched⟩
    · obtain ⟨replyTo, matched, -, -⟩ := moved.asked suits new
      cases replyTo.symm.trans asked
      exact ⟨_, handlers_after_self, matched⟩
  · intro request member unasked
    rcases List.mem_append.mp member with before | new
    · exact queued.unasked request before unasked
    · cases (moved.asked suits new).1.symm.trans unasked
  · simp only [World.after, List.filterMap_append]
    refine List.nodup_append.mpr ⟨queued.distinct, nodup, fun other asked mine is_mine => ?_⟩
    obtain ⟨request, member, asked⟩ := List.mem_filterMap.mp asked
    obtain ⟨new, among, mine_⟩ := List.mem_filterMap.mp is_mine
    cases (moved.asked suits among).1.symm.trans mine_
    exact notMine member asked
  · intro request member barrier
    rcases List.mem_append.mp member with before | new
    · exact queued.barrier request before barrier
    · obtain ⟨-, matched, living, -⟩ := moved.asked suits new
      obtain ⟨round, barrier⟩ := Option.isSome_iff_exists.mp barrier
      exact (matched.closes living barrier).1
  · intro request member r barrier
    rcases List.mem_append.mp member with before | new
    · exact queued.tagged_after slot found moved before barrier
    · obtain ⟨-, matched, living, -⟩ := moved.asked suits new
      obtain ⟨-, purpose, closing, rfl⟩ := matched.closes living barrier
      have there := moved.suits suits slot.numbered
      rw [closing] at there
      exact there
  · refine List.pairwise_append.mpr ⟨?_, alone _, ?_⟩
    · refine queued.ordered.imp fun ordered isBarrier later => ?_
      obtain ⟨other, asked, dropped⟩ := ordered isBarrier later
      exact ⟨other, asked, dropped.after found moved.not_dropped⟩
    · intro earlier before later new isBarrier laterBarrier
      obtain ⟨-, -, -, free⟩ := moved.asked suits new
      obtain ⟨other, asked, dropped⟩ :=
        queued.dropped_of_free slot (free laterBarrier) before isBarrier
      exact ⟨other, asked, dropped.after found moved.not_dropped⟩
  · intro other handler' purpose answer found' at_ request member
    by_cases same : other = id
    · subst same
      cases handlers_after_self.symm.trans found'
      exact absurd at_ (moved.not_heard suits)
    · rw [handlers_after_of_ne same] at found'
      rcases List.mem_append.mp member with before | new
      · exact queued.heard other handler' purpose answer found' at_ request before
      · obtain ⟨-, -, -, free⟩ := moved.asked suits new
        by_contra barrier
        have unclaimed := free (Option.isSome_iff_ne_none.mpr barrier)
        refine slot.free_of_none unclaimed other ⟨handler', found', ?_⟩
        rw [at_]
        rfl

/-- Serving the oldest request leaves a sound queue. -/
theorem serves (queued : self.QueueSound) {request : Request} {queue : List Request}
    {change : Place → Place} (first : self.queue = request :: queue)
    (handlers : next.handlers = JoinGroup.hearing self.handlers request.replyTo? change)
    (rounds : next.rounds = self.rounds) (rest : next.queue = queue)
    (dropped : change .dropped = .dropped)
    (closing : ∀ place purpose answer, change place = .closing purpose (some answer) →
      ∃ before, place = .closing purpose before) : next.QueueSound := by
  have member {other : Request} (h : other ∈ queue) : other ∈ self.queue := by
    rw [first]
    exact List.mem_cons_of_mem _ h
  have distinct := queued.distinct
  have ordered := queued.ordered
  rw [first] at distinct ordered
  have differs {other : Request} (h : other ∈ queue) {id : Nat} (asked : other.replyTo? = some id) :
      request.replyTo? ≠ some id := by
    intro same
    rw [List.filterMap_cons_some same] at distinct
    exact (List.nodup_cons.mp distinct).1 (List.mem_filterMap.mpr ⟨other, h, asked⟩)
  constructor
  · intro other h id asked
    rw [rest] at h
    obtain ⟨handler, found, matched⟩ := queued.awaited other (member h) id asked
    refine ⟨handler, ?_, matched⟩
    rw [handlers]
    simp [JoinGroup.hearing, found, differs h asked]
  · intro other h
    rw [rest] at h
    exact queued.unasked other (member h)
  · rw [rest]
    cases asked : request.replyTo? with
    | none => rwa [List.filterMap_cons_none asked] at distinct
    | some id =>
      rw [List.filterMap_cons_some asked] at distinct
      exact (List.nodup_cons.mp distinct).2
  · intro other h
    rw [rest] at h
    exact queued.barrier other (member h)
  · intro other h r barrier
    rw [rest] at h
    rw [rounds]
    exact queued.tagged other (member h) r barrier
  · rw [rest]
    refine (List.pairwise_cons.mp ordered).2.imp fun before isBarrier later => ?_
    obtain ⟨id, asked, gone⟩ := before isBarrier later
    exact ⟨id, asked, gone.hearing handlers dropped⟩
  · intro id handler purpose answer found at_ other h
    rw [rest] at h
    rw [handlers] at found
    obtain ⟨before, found_before, rfl⟩ := Option.map_eq_some_iff.mp found
    by_cases told : request.replyTo? = some id
    · rw [if_pos told] at at_
      obtain ⟨heard, before_at⟩ := closing _ _ _ at_
      cases heard with
      | some answer =>
        exact queued.heard id before purpose answer found_before before_at other (member h)
      | none =>
        obtain ⟨handler', found', matched⟩ :=
          queued.awaited request (by rw [first]; exact List.mem_cons_self ..) id told
        cases found_before.symm.trans found'
        rw [before_at] at matched
        cases matched
        by_contra later
        obtain ⟨id', asked, handler', found', gone⟩ := (List.pairwise_cons.mp ordered).1 other h rfl
          (Option.isSome_iff_ne_none.mpr later)
        cases told.symm.trans asked
        cases found_before.symm.trans found'
        rw [before_at] at gone
        cases gone
    · rw [if_neg told] at at_
      exact queued.heard id before purpose answer found_before at_ other (member h)

/-- A handler that is dropped is awaited no longer where it stood. -/
theorem drops (queued : self.QueueSound) (found : self.handlers id = some handler) {rounds : Rounds}
    (current : rounds.current = self.rounds.current) :
    (self.after id handler { self.still handler .dropped with rounds }).QueueSound := by
  have gone {other : Nat} (dropped : self.IsDropped other) :
      (self.after id handler { self.still handler .dropped with rounds }).IsDropped other := by
    by_cases same : other = id
    · subst same
      exact ⟨_, handlers_after_self, rfl⟩
    · obtain ⟨handler', found', at_⟩ := dropped
      exact ⟨handler', (handlers_after_of_ne same).trans found', at_⟩
  have same : (self.after id handler { self.still handler .dropped with rounds }).queue =
      self.queue := List.append_nil _
  constructor
  · intro request member other asked
    rw [same] at member
    by_cases eq : other = id
    · subst eq
      exact ⟨_, handlers_after_self, .dropped⟩
    · obtain ⟨handler', found', matched⟩ := queued.awaited request member other asked
      exact ⟨handler', (handlers_after_of_ne eq).trans found', matched⟩
  · rw [same]
    exact queued.unasked
  · rw [same]
    exact queued.distinct
  · rw [same]
    exact queued.barrier
  · intro request member r barrier
    rw [same] at member
    exact current.trans (queued.tagged request member r barrier)
  · rw [same]
    refine queued.ordered.imp fun ordered isBarrier later => ?_
    obtain ⟨other, asked, dropped⟩ := ordered isBarrier later
    exact ⟨other, asked, gone dropped⟩
  · intro other handler' purpose answer found' at_
    rw [same]
    by_cases eq : other = id
    · subst eq
      cases handlers_after_self.symm.trans found'
      cases at_
    · rw [handlers_after_of_ne eq] at found'
      exact queued.heard other handler' purpose answer found' at_

theorem foreign (queued : self.QueueSound) {asked : List Request}
    (foreign : ∀ request ∈ asked, request.isForeign) (sessions : Sessions) :
    ({ self with sessions, queue := self.queue ++ asked } : World).QueueSound := by
  have nobody {request : Request} (member : request ∈ asked) :
      request.replyTo? = none ∧ request.round? = none := by
    have foreign := foreign request member
    cases request with
    | transition => exact foreign
    | roster => cases foreign
  constructor
  · intro request member id isAsked
    rcases List.mem_append.mp member with before | new
    · exact queued.awaited request before id isAsked
    · cases (nobody new).1.symm.trans isAsked
  · intro request member isAsked
    rcases List.mem_append.mp member with before | new
    · exact queued.unasked request before isAsked
    · exact (nobody new).2
  · have none_ : asked.filterMap Request.replyTo? = [] :=
      List.filterMap_eq_nil_iff.mpr fun request member => (nobody member).1
    simpa [none_] using queued.distinct
  · intro request member isBarrier
    rcases List.mem_append.mp member with before | new
    · exact queued.barrier request before isBarrier
    · rw [(nobody new).2] at isBarrier
      cases isBarrier
  · intro request member r barrier
    rcases List.mem_append.mp member with before | new
    · exact queued.tagged request before r barrier
    · cases (nobody new).2.symm.trans barrier
  · refine List.pairwise_append.mpr ⟨queued.ordered, ?_, ?_⟩
    · refine List.pairwise_of_forall_mem_list fun request member other _ isBarrier => ?_
      rw [(nobody member).2] at isBarrier
      cases isBarrier
    · intro request _ other member _ isBarrier
      rw [(nobody member).2] at isBarrier
      cases isBarrier
  · intro id handler purpose answer found at_ request member
    rcases List.mem_append.mp member with before | new
    · exact queued.heard id handler purpose answer found at_ request before
    · exact (nobody new).2

theorem arrives (queued : self.QueueSound) {minted : Nat} (new : self.handlers id = none)
    (notClosing : ∀ purpose answer, handler.place ≠ .closing purpose answer) :
    ({ self with minted, handlers := Function.update self.handlers id (some handler) } :
      World).QueueSound := by
  refine ⟨?_, queued.unasked, queued.distinct, queued.barrier, queued.tagged, ?_, ?_⟩
  · intro request member other asked
    obtain ⟨handler', found, matched⟩ := queued.awaited request member other asked
    exact ⟨handler', handlers_arrived new found, matched⟩
  · refine queued.ordered.imp fun ordered isBarrier later => ?_
    obtain ⟨other, asked, handler', found, at_⟩ := ordered isBarrier later
    exact ⟨other, asked, handler', handlers_arrived new found, at_⟩
  · intro other handler' purpose answer found at_
    dsimp only at found
    by_cases same : other = id
    · subst same
      rw [Function.update_self] at found
      cases found
      exact absurd at_ (notClosing _ _)
    · rw [Function.update_of_ne same] at found
      exact queued.heard other handler' purpose answer found at_

theorem step (queued : self.QueueSound) (slot : self.SlotSound) (stepped : Stepped self action next) :
    next.QueueSound := by
  cases stepped with
  | ticks => exact ⟨queued.1, queued.2, queued.3, queued.4, queued.5, queued.6, queued.7⟩
  | arrives new unenrolled place acted =>
    refine queued.arrives new fun purpose answer at_ => ?_
    rcases place with ⟨_, _, place⟩ | ⟨_, place⟩ <;> cases place.symm.trans at_
  | moves found moved => exact queued.moves slot found moved
  | drops found awaits free =>
    rw [goTo_eq]
    exact queued.drops found rfl
  | dropsHolder found awaits holds free =>
    rename_i id handler
    rw [releaseSlot_goTo]
    exact queued.drops found rfl
  | accepts first taken =>
    refine queued.serves first rfl rfl rfl rfl fun place purpose answer at_ => ?_
    rcases heard_closing at_ with before | ⟨before, -⟩ <;> exact ⟨_, before⟩
  | rejects first =>
    refine queued.serves first rfl rfl rfl rfl fun place purpose answer at_ => ?_
    rcases heard_closing at_ with before | ⟨before, -⟩ <;> exact ⟨_, before⟩
  | stores first =>
    refine queued.serves first rfl rfl rfl rfl fun place purpose answer at_ => ?_
    exact ⟨_, stored_closing at_⟩
  | foreign none_ => exact queued.foreign none_ _

theorem init : World.QueueSound {} := by
  constructor
  case heard =>
    intro id handler purpose answer found
    cases found
  case distinct => exact .nil
  case ordered => exact .nil
  all_goals exact nofun

end QueueSound

end World

end JoinGroup

end Oqueue
