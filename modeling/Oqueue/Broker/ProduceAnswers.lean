import Oqueue.Broker.Numbering
import Oqueue.Broker.ProduceSlots

/-!
# What a produce request is answered

Every partition is answered once, in the request's order, and told an offset only where its
own span has it. Two things can go wrong: a region that the bundle builder refuses may leave
an empty bundle in the way of the next domain's, and a partition named again is let through
when the first entry naming it was refused before its name was taken down.
-/

namespace Oqueue.Broker.Produce

open Threaded FirstSeen

section
variable (version : Int) (authz : AuthzContext) (request : Request)

/-- What the handler does with a request's partitions before it flushes. -/
def prepared : Pending × List TopicOutcome :=
  threaded (oneTopic (modeOf request version) authz) {} request.topics

def slotted : List (Entry × PartitionSlot) :=
  (request.entries version).zip ((prepared version authz request).2.flatMap TopicOutcome.partitions)

/-- The request's entries, each with what a reply says of it. -/
def told (topics : List (TopicIdentity × List ResponsePartition)) : List (Entry × ResponsePartition) :=
  (request.entries version).zip (topics.flatMap Prod.snd)

/-- A topic is answered under the name or the id it was given by. -/
def Identifies (topic : Topic) : TopicIdentity → Prop
  | .name name => version ≤ 12 ∧ topic.name = some name
  | .id topicId => 13 ≤ version ∧ topic.topicId = topicId

variable {version authz request}

theorem sum_filter_le {gone : Topic → Partition → Bool} (topics : List Topic) :
    ((topics.map fun topic => { topic with
        partitions := topic.partitions.filter (gone topic) }).map
      fun topic => topic.partitions.length).sum ≤
      (topics.map fun topic => topic.partitions.length).sum := by
  induction topics with
  | nil => exact Nat.le_refl _
  | cons topic rest ih =>
    have := List.length_filter_le (gone topic) topic.partitions
    simp only [List.map_cons, List.sum_cons] at ih ⊢
    omega

def Request.without (self : Request) (version : Int) (gone : Option String × Int → Bool) :
    Request where
  acks := self.acks
  topics := self.topics.map fun topic => { topic with
    partitions := topic.partitions.filter fun partition =>
      !gone (topic.resolved version, partition.index) }
  framed := Nat.lt_of_le_of_lt (sum_filter_le self.topics) self.framed

variable (version authz request)

/-- What one reply should be, given what the shard had served before, what met the flushes,
and the shard after them. -/
structure Truthful (history : List (LoopRequest × Except Error Unit)) (weather : Nat → Weather)
    (later : Shard) (topics : List (TopicIdentity × List ResponsePartition)) : Prop where
  /-- One answer a partition, in the request's order. -/
  positional : List.Forall₂ (fun topic answered => Identifies version topic answered.1 ∧
    answered.2.map ResponsePartition.index = topic.partitions.map Partition.index)
    request.topics topics
  /-- Success comes with the offset the partition's own span was journaled at, by this request
  or, a duplicate of it, before. -/
  journaled : ∀ pair ∈ told version request topics, pair.2.errorCode = ErrorCode.none →
    ∃ topic record bytes base, pair.1.topic = some topic ∧
      screened topic pair.1.partition = .ok record ∧ pair.2.baseOffset = (base : Nat) ∧
      CoordinatorLoop.Acknowledged later.journaled later.own (record.span bytes) base
  unassigned : ∀ pair ∈ told version request topics, pair.2.errorCode ≠ ErrorCode.none →
    pair.2.baseOffset = -1
  /-- An entry naming a partition that an earlier entry names is refused. -/
  repeated : ∀ before pair after, slotted version authz request = before ++ pair :: after →
    pair.1.names ∈ before.map (fun earlier => earlier.1.names) → ∃ code, pair.2.slot = .refused code
  /-- Partitions that are refused before the flush may as well be left out. -/
  independent : ∀ gone topics', (∀ pair ∈ slotted version authz request,
      gone pair.1.names = true → ∃ code, pair.2.slot = .refused code) →
    (handle version authz (request.without version gone) weather (.after history)).2 =
      .reply topics' →
    told version (request.without version gone) topics' =
      (told version request topics).filter fun pair => !gone pair.1.names
  /-- What meets a domain's flush changes no answer of the domains flushed before it. -/
  earlier : ∀ weather' topics' upto, (∀ index, index < upto → weather' index = weather index) →
    (handle version authz request weather' (.after history)).2 = .reply topics' →
    ∀ (place index nth : Nat) (slot : Entry × PartitionSlot) (route : List Nat), index < upto →
      (slotted version authz request)[place]? = some slot → slot.2.slot = .pushed nth →
      (prepared version authz request).1.routes[index]? = some route → nth ∈ route →
      (told version request topics')[place]? = (told version request topics)[place]?

def offersOf : List Offered := (passOf (modeOf request version) authz (request.entries version)).offers

/-- A partition named again, by an entry that would pass on its own, was named by an entry
that passed its own checks. -/
def Reserved : Prop := ∀ before entry after, request.entries version = before ++ entry :: after →
  entry.names ∈ before.map Entry.names →
  (entry.offered (modeOf request version) authz).any Offered.fits = true →
  ∃ earlier ∈ before, earlier.names = entry.names ∧
    (earlier.screen (modeOf request version) authz).isOk = true

/-- The domain of a region that the bundle builder refuses has a region already when another
domain gets its first, or neither's bundle can be written anyway. -/
def Unobstructed : Prop :=
  FirstSeen.InOrder Offered.domain Offered.fits
    (seals (bundleOf ((offersOf version authz request).filter Offered.fits)))
    (offersOf version authz request)

end

section
variable {version : Int} {authz : AuthzContext} {request : Request}

theorem prepared_eq : (prepared version authz request).1 =
      (passOf (modeOf request version) authz (request.entries version)).pending ∧
    slotted version authz request =
      pairsFrom (modeOf request version) authz {} (request.entries version) := by
  have whole := @threaded_oneTopic (modeOf request version) authz request
  dsimp only at whole
  have parts := Prod.mk.inj whole
  exact ⟨parts.1, congrArg ((request.entries version).zip ·) parts.2⟩

/-- A topic's outcome is about its partitions, and keeps its name or its id. -/
theorem outcomes_shape (mode : TopicMode) (pending : Pending) (topics : List Topic) :
    List.Forall₂ (fun (topic : Topic) (outcome : TopicOutcome) =>
      outcome.name = (if 13 ≤ mode.version then none else topic.name) ∧
        outcome.topicId = topic.topicId ∧
        outcome.partitions.map PartitionSlot.index = topic.partitions.map Partition.index)
      topics (threaded (oneTopic mode authz) pending topics).2 := by
  induction topics generalizing pending with
  | nil => exact .nil
  | cons topic rest ih =>
    refine .cons ⟨rfl, rfl, ?_⟩ (ih _)
    have indexes (pending : Pending) (partitions : List Partition) :
        (threaded (takePartition mode authz (topic.resolved mode.version)) pending
          partitions).2.map PartitionSlot.index = partitions.map Partition.index := by
      induction partitions generalizing pending with
      | nil => rfl
      | cons partition rest ih =>
        have one : (takePartition mode authz (topic.resolved mode.version) pending
            partition).2.index = partition.index := by
          unfold takePartition
          split <;> rfl
        simp only [threaded, List.map_cons, ih, one]
    exact indexes pending topic.partitions

/-- No topic of a request that can be answered is left out of its answer. -/
theorem buildResponseTopics_shape {topics : List Topic} {outcomes : List TopicOutcome}
    (shape : List.Forall₂ (fun (topic : Topic) (outcome : TopicOutcome) =>
      outcome.name = (if 13 ≤ version then none else topic.name) ∧
        outcome.topicId = topic.topicId ∧
        outcome.partitions.map PartitionSlot.index = topic.partitions.map Partition.index)
      topics outcomes) (named : version ≤ 12 → ∀ topic ∈ topics, topic.name.isSome = true)
    (flushed : Except FlushError (List PushOutcome)) :
    List.Forall₂ (fun topic (answered : TopicIdentity × List ResponsePartition) =>
      Identifies version topic answered.1 ∧
        answered.2.map ResponsePartition.index = topic.partitions.map Partition.index)
      topics (buildResponseTopics version flushed outcomes) ∧
    (buildResponseTopics version flushed outcomes).flatMap Prod.snd =
      (outcomes.flatMap TopicOutcome.partitions).map (answer flushed) := by
  unfold buildResponseTopics
  induction shape with
  | nil => exact ⟨.nil, rfl⟩
  | @cons topic outcome rest outcomes one _ ih =>
    obtain ⟨hname, hid, hindexes⟩ := one
    obtain ⟨tail, flat⟩ := ih fun old other h => named old other (List.mem_cons_of_mem _ h)
    have indexes : (outcome.partitions.map (answer flushed)).map ResponsePartition.index =
        topic.partitions.map Partition.index := by
      rw [← hindexes, List.map_map]
      rfl
    by_cases old : version ≤ 12
    · have young : ¬ 13 ≤ version := by omega
      rw [if_neg young] at hname
      obtain ⟨name, hsome⟩ := Option.isSome_iff_exists.mp (named old topic (List.mem_cons_self ..))
      rw [List.filterMap_cons_some (by rw [if_pos old, hname, hsome]; rfl)]
      refine ⟨.cons ⟨⟨old, hsome⟩, indexes⟩ tail, ?_⟩
      rw [List.flatMap_cons, List.flatMap_cons, List.map_append, flat]
    · rw [List.filterMap_cons_some (by rw [if_neg old])]
      refine ⟨.cons ⟨⟨by omega, hid.symm⟩, indexes⟩ tail, ?_⟩
      rw [List.flatMap_cons, List.flatMap_cons, List.map_append, flat]

/-- What a request's flushes decide. -/
def outcomes (version : Int) (authz : AuthzContext) (request : Request) (weather : Nat → Weather)
    (shard : Shard) : List PushOutcome :=
  settled weather shard ((offersOf version authz request).filter Offered.fits)
    (sent (offersOf version authz request))

/-- The reply to a request that gets one. -/
theorem handle_eq_reply {weather : Nat → Weather} {shard later : Shard} (sound : shard.Sound)
    {topics : List (TopicIdentity × List ResponsePartition)} :
    handle version authz request weather shard = (later, .reply topics) ↔
      unanswerable request version = false ∧ request.acks ≠ 0 ∧
      flush weather shard (passOf (modeOf request version) authz (request.entries version)).pending =
        (later, .ok (outcomes version authz request weather shard)) ∧
      topics = buildResponseTopics version (.ok (outcomes version authz request weather shard))
        (prepared version authz request).2 := by
  obtain ⟨later', -, hflush, -⟩ := flush_pending sound weather
    (passOf (modeOf request version) authz (request.entries version))
  have hflush' : flush weather shard
      (passOf (modeOf request version) authz (request.entries version)).pending =
        (later', .ok (outcomes version authz request weather shard)) := hflush
  have pending := (@prepared_eq version authz request).1
  unfold handle
  cases unanswerable request version with
  | true => simp
  | false =>
    rw [if_neg Bool.false_ne_true]
    have prepare : threaded (oneTopic (modeOf request version) authz) {} request.topics =
        prepared version authz request := rfl
    simp only [prepare, pending, hflush']
    by_cases quiet : request.acks = 0
    · simp [quiet]
    · rw [if_neg quiet]
      simp only [Prod.mk.injEq, HandlerResponse.reply.injEq, true_and, ne_eq, quiet,
        not_false_eq_true, and_true]
      constructor
      · rintro ⟨rfl, rfl⟩
        exact ⟨rfl, rfl⟩
      · rintro ⟨rfl, rfl⟩
        exact ⟨rfl, rfl⟩

theorem offersOf_sound : (passOf (modeOf request version) authz (request.entries version)).Sound :=
  passOf_sound _

theorem named_of_answerable (h : unanswerable request version = false) :
    version ≤ 12 → ∀ topic ∈ request.topics, topic.name.isSome = true := by
  intro old topic among
  unfold unanswerable at h
  simp only [old, decide_true, Bool.true_and, List.any_eq_false] at h
  cases name : topic.name with
  | some _ => rfl
  | none => exact absurd (by simp [name]) (h topic among)

theorem prepared_shape (h : unanswerable request version = false)
    (flushed : Except FlushError (List PushOutcome)) :
    List.Forall₂ (fun topic (answered : TopicIdentity × List ResponsePartition) =>
      Identifies version topic answered.1 ∧
        answered.2.map ResponsePartition.index = topic.partitions.map Partition.index)
      request.topics (buildResponseTopics version flushed (prepared version authz request).2) ∧
    (buildResponseTopics version flushed (prepared version authz request).2).flatMap Prod.snd =
      ((prepared version authz request).2.flatMap TopicOutcome.partitions).map (answer flushed) :=
  @buildResponseTopics_shape version request.topics (prepared version authz request).2
    (outcomes_shape (modeOf request version) {} request.topics) (named_of_answerable h) flushed

theorem told_eq (h : unanswerable request version = false)
    (flushed : Except FlushError (List PushOutcome)) :
    told version request (buildResponseTopics version flushed (prepared version authz request).2) =
      (slotted version authz request).map fun pair => (pair.1, answer flushed pair.2) := by
  unfold told slotted
  rw [(prepared_shape h flushed).2, List.zip_map_right]
  rfl

theorem verdict_unassigned {slot : Slot} {flushed : Except FlushError (List PushOutcome)}
    (h : (verdict slot flushed).1 ≠ ErrorCode.none) : (verdict slot flushed).2 = -1 := by
  unfold verdict at h ⊢
  split
  · rfl
  · split
    · rename_i held
      simp only [held] at h
      exact absurd rfl h
    · rfl
    · rfl
    · rfl
  · rfl

theorem fromRejection_ne (reason : RejectReason) :
    ∃ code, code ≠ ErrorCode.none ∧ PushOutcome.ofSpan (.rejected reason) = .refused code := by
  cases reason with
  | outOfOrder => exact ⟨_, by decide, rfl⟩
  | duplicate => exact ⟨_, by decide, rfl⟩
  | staleEpoch => exact ⟨_, by decide, rfl⟩

/-- Success means an offset among the outcomes. -/
theorem verdict_none {nth : Nat} {outcomes : List PushOutcome}
    (cases_ : ∀ outcome, outcomes[nth]? = some outcome → (∃ answered, outcome = .ofSpan answered) ∨
      ∃ code, code ≠ ErrorCode.none ∧ outcome = .failed code)
    (h : (verdict (.pushed nth) (.ok outcomes)).1 = ErrorCode.none) :
    ∃ base, outcomes[nth]? = some (.assigned base) ∧
      (verdict (.pushed nth) (.ok outcomes)).2 = (base : Nat) := by
  unfold verdict at h ⊢
  dsimp only at h ⊢
  cases held : outcomes[nth]? with
  | none =>
    rw [held] at h
    exact absurd h (by decide)
  | some outcome =>
    rw [held] at h
    rcases cases_ outcome held with ⟨answered, rfl⟩ | ⟨code, ne, rfl⟩
    · cases answered with
      | assigned assignment => exact ⟨_, rfl, rfl⟩
      | rejected reason =>
        obtain ⟨code, ne, hcode⟩ := fromRejection_ne reason
        rw [hcode] at h
        exact absurd h ne
    · exact absurd h ne

theorem entries_without (gone : Option String × Int → Bool) :
    (request.without version gone).entries version =
      (request.entries version).filter fun entry => !gone entry.names := by
  unfold Request.entries Request.without
  dsimp only
  generalize request.topics = topics
  induction topics with
  | nil => rfl
  | cons topic rest ih =>
    rw [List.map_cons, List.flatMap_cons, List.flatMap_cons, List.filter_append, ih]
    congr 1
    unfold Topic.entries
    rw [List.filter_map]
    rfl

theorem unanswerable_without (gone : Option String × Int → Bool) :
    unanswerable (request.without version gone) version = unanswerable request version := by
  unfold unanswerable Request.without
  rw [List.any_map]
  rfl

theorem seals_needed (offers : List Offered) (domain : KeyDomain)
    (good : seals (bundleOf (offers.filter Offered.fits)) domain = true) :
    domain ∈ (offers.filter Offered.fits).map Offered.domain := by
  obtain ⟨nth, offer, hoffer, rfl⟩ := exists_of_seals good
  exact List.mem_map_of_mem (List.mem_of_getElem? hoffer)

/-- Leaving refused partitions out leaves the same regions, and fewer that were refused. -/
theorem offersOf_without {gone : Option String × Int → Bool}
    (refused : ∀ pair ∈ slotted version authz request, gone pair.1.names = true →
      ∃ code, pair.2.slot = .refused code) :
    slotted version authz (request.without version gone) =
        (slotted version authz request).filter (fun pair => !gone pair.1.names) ∧
      offersOf version authz (request.without version gone) =
        (offersOf version authz request).filter
          (fun offer => !gone (some offer.names.1, offer.names.2)) ∧
      (offersOf version authz (request.without version gone)).filter Offered.fits =
        (offersOf version authz request).filter Offered.fits := by
  have mode : modeOf (request.without version gone) version = modeOf request version := rfl
  rw [prepared_eq.2] at refused
  rw [prepared_eq.2, prepared_eq.2]
  unfold offersOf passOf
  rw [mode, entries_without]
  obtain ⟨pairs, pass, fitting⟩ := pairsFrom_without {} (request.entries version) rfl refused
  have start : ({} : Pass).without gone = {} := rfl
  rw [start] at pairs pass
  rw [pairs, pass, fitting]
  exact ⟨rfl, rfl, rfl⟩

theorem sent_without (clear : Unobstructed version authz request)
    {gone : Option String × Int → Bool}
    (refused : ∀ pair ∈ slotted version authz request, gone pair.1.names = true →
      ∃ code, pair.2.slot = .refused code) :
    sent (offersOf version authz (request.without version gone)) =
      sent (offersOf version authz request) := by
  obtain ⟨-, left, fitting⟩ := offersOf_without refused
  have stay : ∀ offer ∈ offersOf version authz request, offer.fits = true →
      gone (some offer.names.1, offer.names.2) = false := by
    intro offer among fits
    have inside : offer ∈ (offersOf version authz (request.without version gone)).filter
        Offered.fits := by
      rw [fitting]
      exact List.mem_filter.mpr ⟨among, fits⟩
    rw [left] at inside
    simpa using List.of_mem_filter (List.mem_of_mem_filter inside)
  have some_left : (offersOf version authz request).filter
      (fun offer => offer.fits || !gone (some offer.names.1, offer.names.2)) =
      offersOf version authz (request.without version gone) := by
    rw [left]
    refine List.filter_congr fun offer among => ?_
    cases fits : offer.fits with
    | false => rfl
    | true => rw [stay offer among fits]; rfl
  have needed := seals_needed (offersOf version authz request)
  have one := lead_of_inOrder clear needed
    (p := fun offer => offer.fits || !gone (some offer.names.1, offer.names.2))
    fun offer fits => by rw [fits]; rfl
  have whole := lead_of_inOrder clear needed (p := fun _ => true) fun _ _ => rfl
  rw [List.filter_true] at whole
  unfold sent
  rw [fitting, ← some_left, one, ← whole]

variable {history : List (LoopRequest × Except Error Unit)} {weather : Nat → Weather}
  {later : Shard} {topics : List (TopicIdentity × List ResponsePartition)}

theorem mem_told {flushed : Except FlushError (List PushOutcome)}
    (open_ : unanswerable request version = false) {pair : Entry × ResponsePartition}
    (h : pair ∈ told version request
      (buildResponseTopics version flushed (prepared version authz request).2)) :
    ∃ slot, (pair.1, slot) ∈ slotted version authz request ∧ pair.2 = answer flushed slot := by
  rw [told_eq open_] at h
  obtain ⟨⟨entry, slot⟩, among, rfl⟩ := List.mem_map.mp h
  exact ⟨slot, among, rfl⟩

/-- Success comes with the entry's own offset, whatever else goes on. -/
theorem told_journaled
    (h : handle version authz request weather (.after history) = (later, .reply topics)) :
    ∀ pair ∈ told version request topics, pair.2.errorCode = ErrorCode.none →
      ∃ topic record bytes base, pair.1.topic = some topic ∧
        screened topic pair.1.partition = .ok record ∧ pair.2.baseOffset = (base : Nat) ∧
        CoordinatorLoop.Acknowledged later.journaled later.own (record.span bytes) base := by
  obtain ⟨open_, -, hflush, rfl⟩ := (handle_eq_reply (Shard.sound_after history)).mp h
  obtain ⟨later', -, hflush', answers⟩ := flush_pending (Shard.sound_after history) weather
    (passOf (modeOf request version) authz (request.entries version))
  rw [hflush] at hflush'
  obtain ⟨rfl, -⟩ := Prod.mk.inj hflush'
  intro pair among success
  obtain ⟨slot, hslot, hanswer⟩ := mem_told open_ among
  rw [prepared_eq.2] at hslot
  rw [hanswer] at success ⊢
  obtain ⟨-, ⟨nth, offer, hpushed, hoffer, hplace⟩ | ⟨code, ne, hrefused⟩⟩ := mem_pairsFrom hslot
  · dsimp only at hpushed hoffer
    dsimp only [answer] at success ⊢
    rw [hpushed] at success ⊢
    obtain ⟨base, hbase, hoffset⟩ := verdict_none (fun outcome held => settled_cases held) success
    obtain ⟨topic, hscreen, -⟩ := offered_eq_some hoffer
    obtain ⟨-, hscreened, htopic⟩ := screen_eq_ok hscreen
    obtain ⟨bytes, acknowledged⟩ := settled_assigned answers hplace hbase
    exact ⟨topic, offer.record, bytes, base, htopic, hscreened, hoffset, acknowledged⟩
  · dsimp only at hrefused
    dsimp only [answer] at success
    rw [hrefused] at success
    exact absurd success ne

theorem slotted_repeated (reserved : Reserved version authz request) :
    ∀ before pair after, slotted version authz request = before ++ pair :: after →
      pair.1.names ∈ before.map (fun earlier => earlier.1.names) →
      ∃ code, pair.2.slot = .refused code := by
  intro before pair after split named
  rw [prepared_eq.2] at split
  obtain ⟨whole, nth, hslot⟩ := pairsFrom_split split
  rw [hslot]
  rcases @slot_cases (modeOf request version) authz
    ((before.map Prod.fst).foldl (Pass.take (modeOf request version) authz) {}) pair.1 with
    ⟨offer, hoffer, fits, once, -, -⟩ | ⟨-, -, code, -, refused⟩
  · exfalso
    obtain ⟨earlier, among, names, passed⟩ := reserved _ _ _ whole
      (by rw [List.map_map]; exact named) (by rw [hoffer]; exact fits)
    have taken := (@repeats_foldl (modeOf request version) authz {} (before.map Prod.fst)
      pair.1).mpr (.inr ⟨earlier, among, names, passed⟩)
    rw [once] at taken
    cases taken
  · exact ⟨code, refused nth⟩

theorem told_earlier
    (h : handle version authz request weather (.after history) = (later, .reply topics))
    {weather' : Nat → Weather} {topics' : List (TopicIdentity × List ResponsePartition)}
    {upto : Nat} (same : ∀ index, index < upto → weather' index = weather index)
    (h' : (handle version authz request weather' (.after history)).2 = .reply topics')
    {place index nth : Nat} {slot : Entry × PartitionSlot} {route : List Nat} (inside : index < upto)
    (hslot : (slotted version authz request)[place]? = some slot) (hpushed : slot.2.slot = .pushed nth)
    (hroute : (prepared version authz request).1.routes[index]? = some route) (among : nth ∈ route) :
    (told version request topics')[place]? = (told version request topics)[place]? := by
  obtain ⟨open_, -, -, rfl⟩ := (handle_eq_reply (Shard.sound_after history)).mp h
  obtain ⟨-, -, -, rfl⟩ := (handle_eq_reply (Shard.sound_after history)).mp (Prod.ext rfl h')
  rw [told_eq open_, told_eq open_, List.getElem?_map, List.getElem?_map, hslot, Option.map_some,
    Option.map_some]
  rw [prepared_eq.1] at hroute
  have routes : (passOf (modeOf request version) authz (request.entries version)).pending.routes =
      (keysOf Offered.domain (offersOf version authz request)).map fun domain =>
        (rowsOf ((offersOf version authz request).filter Offered.fits) domain).map Prod.snd := rfl
  rw [routes, List.getElem?_map, Option.map_eq_some_iff] at hroute
  obtain ⟨domain, hdomain, rfl⟩ := hroute
  obtain ⟨⟨offer, nth'⟩, hrow, hnth⟩ := List.mem_map.mp among
  obtain ⟨hoffer, rfl⟩ := mem_rowsOf.mp hrow
  obtain rfl : nth = nth' := hnth.symm
  have front : (sent (offersOf version authz request)).IsPrefix
      (keysOf Offered.domain (offersOf version authz request)) := List.takeWhile_prefix _
  have alike : (outcomes version authz request weather' (.after history))[nth]? =
      (outcomes version authz request weather (.after history))[nth]? :=
    settled_earlier (Shard.sound_after history) same inside
      (nodup_keysOf (offersOf version authz request)) front hoffer hdomain
  unfold answer
  rw [hpushed]
  unfold verdict
  dsimp only
  rw [alike]

/-- A request whose names are taken down in time and whose refused regions are in nobody's
way is answered as it should be. -/
theorem truthful_of (reserved : Reserved version authz request)
    (clear : Unobstructed version authz request)
    (h : handle version authz request weather (.after history) = (later, .reply topics)) :
    Truthful version authz request history weather later topics := by
  have sound := Shard.sound_after history
  obtain ⟨open_, heard, -, htopics⟩ := (handle_eq_reply sound).mp h
  refine ⟨?_, told_journaled h, ?_, slotted_repeated reserved, ?_, ?_⟩
  · rw [htopics]
    exact (prepared_shape open_ _).1
  · intro pair among failed
    rw [htopics] at among
    obtain ⟨slot, -, hanswer⟩ := mem_told open_ among
    rw [hanswer] at failed ⊢
    exact verdict_unassigned failed
  · intro gone topics' refused h'
    obtain ⟨open', -, -, htopics'⟩ := (handle_eq_reply sound).mp (Prod.ext rfl h')
    obtain ⟨slots, -, fitting⟩ := offersOf_without refused
    have alike : outcomes version authz (request.without version gone) weather (.after history) =
        outcomes version authz request weather (.after history) := by
      unfold outcomes
      rw [fitting, sent_without clear refused]
    rw [htopics, htopics', told_eq open_, told_eq open', slots, alike, List.filter_map]
    rfl
  · intro weather' topics' upto same h' place index nth slot route inside hslot hpushed hroute among
    exact told_earlier h same h' inside hslot hpushed hroute among

theorem exists_reply (open_ : unanswerable request version = false) (heard : request.acks ≠ 0)
    (history : List (LoopRequest × Except Error Unit)) (weather : Nat → Weather) :
    ∃ later topics, handle version authz request weather (.after history) = (later, .reply topics) := by
  have sound := Shard.sound_after history
  obtain ⟨later, -, hflush, -⟩ := flush_pending sound weather
    (passOf (modeOf request version) authz (request.entries version))
  exact ⟨later, _, (handle_eq_reply sound).mpr ⟨open_, heard, hflush, rfl⟩⟩

theorem reserved_of (open_ : unanswerable request version = false) (heard : request.acks ≠ 0)
    (all : ∀ history weather later topics,
      handle version authz request weather (.after history) = (later, .reply topics) →
      Truthful version authz request history weather later topics) :
    Reserved version authz request := by
  intro before entry after split named fits
  obtain ⟨later, topics, h⟩ := @exists_reply version authz request open_ heard [] fun _ => fair
  have repeated := (all _ _ _ _ h).repeated
  by_contra none
  have fresh : (before.foldl (Pass.take (modeOf request version) authz) {}).repeats entry = false := by
    by_contra taken
    rcases (repeats_foldl {} before entry).mp (by simpa using taken) with start | earlier
    · cases start
    · exact none earlier
  have names : (pairsFrom (modeOf request version) authz {} before).map
      (fun earlier => earlier.1.names) = before.map Entry.names := by
    conv_rhs => rw [← @map_fst_pairsFrom (modeOf request version) authz {} before]
    rw [List.map_map]
    rfl
  rw [prepared_eq.2, split, pairsFrom_append] at repeated
  obtain ⟨code, refused⟩ := repeated _ _ _ rfl (by rw [names]; exact named)
  rcases @slot_cases (modeOf request version) authz
    (before.foldl (Pass.take (modeOf request version) authz) {}) entry with
    ⟨_, -, -, -, -, pushed⟩ | ⟨taken | unfit, -⟩
  · rw [pushed] at refused
    cases refused
  · rw [fresh] at taken
    cases taken
  · rw [fits] at unfit
    cases unfit

/-- The partitions whose region was refused, but for one of them. -/
def refusedBut (offers : List Offered) (kept : Option (String × Int)) (names : Option String × Int) :
    Bool :=
  offers.any fun offer => !offer.fits && decide ((some offer.names.1, offer.names.2) = names) &&
    decide (kept ≠ some offer.names)

theorem refusedBut_eq {offers : List Offered} (once : (offers.map Offered.names).Nodup)
    (kept : Option (String × Int)) {offer : Offered} (among : offer ∈ offers) :
    refusedBut offers kept (some offer.names.1, offer.names.2) =
      (!offer.fits && decide (kept ≠ some offer.names)) := by
  unfold refusedBut
  rw [Bool.eq_iff_iff]
  simp only [List.any_eq_true, Bool.and_eq_true, Bool.not_eq_true', decide_eq_true_eq]
  constructor
  · rintro ⟨other, hother, ⟨unfit, names⟩, differs⟩
    have same : other.names = offer.names := by
      obtain ⟨first, second⟩ := Prod.mk.inj names
      exact Prod.ext (Option.some.inj first) second
    obtain rfl := List.inj_on_of_nodup_map once hother among same
    exact ⟨unfit, differs⟩
  · rintro ⟨unfit, differs⟩
    exact ⟨offer, among, ⟨unfit, rfl⟩, differs⟩

theorem refusedBut_refused (kept : Option (String × Int)) :
    ∀ pair ∈ slotted version authz request,
      refusedBut (offersOf version authz request) kept pair.1.names = true →
      ∃ code, pair.2.slot = .refused code := by
  intro pair among gone
  rw [prepared_eq.2] at among
  obtain ⟨-, ⟨nth, offer, -, hoffer, hplace⟩ | ⟨code, -, hrefused⟩⟩ := mem_pairsFrom among
  · exfalso
    obtain ⟨topic, hscreen, hnames, -⟩ := offered_eq_some hoffer
    have names : pair.1.names = (some offer.names.1, offer.names.2) := by
      unfold Entry.names
      rw [(screen_eq_ok hscreen).2.2, hnames]
    have once : ((offersOf version authz request).map Offered.names).Nodup := offersOf_sound.once
    have held : offer ∈ (offersOf version authz request).filter Offered.fits :=
      List.mem_of_getElem? hplace
    rw [List.mem_filter] at held
    rw [names, refusedBut_eq once kept held.1, held.2] at gone
    cases gone
  · exact ⟨code, hrefused⟩

/-- Where leaving partitions out changes no answer, it changes no region's verdict. -/
theorem verdict_without
    (open_ : unanswerable request version = false) (heard : request.acks ≠ 0)
    (all : ∀ history weather later topics,
      handle version authz request weather (.after history) = (later, .reply topics) →
      Truthful version authz request history weather later topics)
    {gone : Option String × Int → Bool}
    (refused : ∀ pair ∈ slotted version authz request, gone pair.1.names = true →
      ∃ code, pair.2.slot = .refused code) (weather : Nat → Weather) {nth : Nat}
    (inside : nth < ((offersOf version authz request).filter Offered.fits).length) :
    verdict (.pushed nth) (.ok (outcomes version authz (request.without version gone) weather {})) =
      verdict (.pushed nth) (.ok (outcomes version authz request weather {})) := by
  obtain ⟨later, topics, h⟩ := @exists_reply version authz request open_ heard [] weather
  have open' : unanswerable (request.without version gone) version = false := by
    rw [unanswerable_without]
    exact open_
  obtain ⟨later', topics', h'⟩ := @exists_reply version authz _ open' heard [] weather
  have told' := (all _ _ _ _ h).independent gone topics' refused (congrArg Prod.snd h')
  have sound := Shard.sound_after []
  obtain ⟨-, -, -, htopics⟩ := (handle_eq_reply sound).mp h
  obtain ⟨-, -, -, htopics'⟩ := (handle_eq_reply sound).mp h'
  rw [htopics, htopics', told_eq open_, told_eq open', (offersOf_without refused).1,
    List.filter_map] at told'
  obtain ⟨pair, among, pushed⟩ := @exists_pushed (modeOf request version) authz {}
    (request.entries version) nth (Nat.zero_le nth) inside
  rw [← prepared_eq.2] at among
  have stays : gone pair.1.names = false := by
    by_contra goes
    obtain ⟨code, hcode⟩ := refused pair among (by simpa using goes)
    rw [pushed] at hcode
    cases hcode
  have same := List.map_inj_left.mp told' pair (List.mem_filter.mpr ⟨among, by simp [stays]⟩)
  have answers := (Prod.mk.inj same).2
  unfold answer at answers
  rw [pushed] at answers
  injection answers with _ code offset
  exact Prod.ext code offset

theorem length_keysOf_le (offers : List Offered) :
    (keysOf Offered.domain offers).length ≤ offers.length := by
  have sub : keysOf Offered.domain offers ⊆ offers.map Offered.domain := fun _ h => mem_keysOf.mp h
  have few := (nodup_keysOf offers).subperm sub
  simpa using few.length_le

theorem length_offersOf : (offersOf version authz request).length < 2 ^ 31 := by
  obtain ⟨more, hmore, few⟩ := @foldl_offers (modeOf request version) authz {}
    (request.entries version)
  have whole : offersOf version authz request = more := hmore
  have entries : (request.entries version).length =
      (request.topics.map fun topic => topic.partitions.length).sum := by
    unfold Request.entries Topic.entries
    rw [List.length_flatMap]
    simp
  have framed := request.framed
  rw [whole]
  omega

theorem carried_offersOf :
    carried ((offersOf version authz request).filter Offered.fits) ≤ i64Max := by
  have each : ∀ count ∈ ((offersOf version authz request).filter Offered.fits).map
      fun offer => offer.record.pushed.count, count ≤ 2 ^ 31 := by
    intro count h
    obtain ⟨offer, among, rfl⟩ := List.mem_map.mp h
    exact (offersOf_sound.counts offer (List.mem_of_mem_filter among)).le
  have sum := List.sum_le_card_nsmul _ _ each
  have few := List.length_filter_le Offered.fits (offersOf version authz request)
  have all := @length_offersOf version authz request
  rw [List.length_map, smul_eq_mul] at sum
  unfold carried i64Max
  calc _ ≤ ((offersOf version authz request).filter Offered.fits).length * 2 ^ 31 := sum
    _ ≤ 2 ^ 31 * 2 ^ 31 := Nat.mul_le_mul_right _ (by omega)
    _ ≤ _ := by decide

theorem sent_facts (offers : List Offered) : (sent offers).Nodup ∧
    (sent offers).length ≤ offers.length ∧
    ∀ domain ∈ sent offers, seals (bundleOf (offers.filter Offered.fits)) domain = true := by
  have front := List.takeWhile_sublist (seals (bundleOf (offers.filter Offered.fits)))
    (l := keysOf Offered.domain offers)
  exact ⟨(nodup_keysOf offers).sublist front, front.length_le.trans (length_keysOf_le offers),
    fun _ h => List.mem_takeWhile_imp h⟩

/-- Where two ways of leaving refused partitions out send different bundles, some weather
tells them apart. -/
theorem sent_without_eq (open_ : unanswerable request version = false) (heard : request.acks ≠ 0)
    (all : ∀ history weather later topics,
      handle version authz request weather (.after history) = (later, .reply topics) →
      Truthful version authz request history weather later topics)
    {gone gone' : Option String × Int → Bool}
    (refused : ∀ pair ∈ slotted version authz request, gone pair.1.names = true →
      ∃ code, pair.2.slot = .refused code)
    (refused' : ∀ pair ∈ slotted version authz request, gone' pair.1.names = true →
      ∃ code, pair.2.slot = .refused code) :
    sent (offersOf version authz (request.without version gone)) =
      sent (offersOf version authz (request.without version gone')) := by
  have fitting := (offersOf_without refused).2.2
  have fitting' := (offersOf_without refused').2.2
  obtain ⟨once, few, good⟩ := sent_facts (offersOf version authz (request.without version gone))
  obtain ⟨once', few', good'⟩ := sent_facts (offersOf version authz (request.without version gone'))
  rw [fitting] at good
  rw [fitting'] at good'
  have length := @length_offersOf version authz (request.without version gone)
  have length' := @length_offersOf version authz (request.without version gone')
  by_contra differ
  obtain ⟨flushes, nth, inside, told⟩ := settled_ne carried_offersOf
    ⟨few.trans (by unfold u64Max; omega), few'.trans (by unfold u64Max; omega)⟩
    once once' differ good good'
  have one := verdict_without open_ heard all refused (fairFor flushes) inside
  have other := verdict_without open_ heard all refused' (fairFor flushes) inside
  unfold outcomes at one other
  rw [fitting] at one
  rw [fitting'] at other
  exact told (one.trans other.symm)

theorem unobstructed_of (open_ : unanswerable request version = false) (heard : request.acks ≠ 0)
    (all : ∀ history weather later topics,
      handle version authz request weather (.after history) = (later, .reply topics) →
      Truthful version authz request history weather later topics) :
    Unobstructed version authz request := by
  by_contra disorder
  have once : ((offersOf version authz request).map Offered.names).Nodup := offersOf_sound.once
  obtain ⟨other, -, -, differ⟩ := exists_lead_ne once disorder
  have same := sent_without_eq open_ heard all (refusedBut_refused (some other.names))
    (refusedBut_refused none)
  obtain ⟨-, left, fitting⟩ := offersOf_without
    (@refusedBut_refused version authz request (some other.names))
  obtain ⟨-, left', fitting'⟩ := offersOf_without (@refusedBut_refused version authz request none)
  have kept : offersOf version authz (request.without version
        (refusedBut (offersOf version authz request) (some other.names))) =
      (offersOf version authz request).filter
        (fun offer => offer.fits || decide (offer.names = other.names)) := by
    rw [left]
    refine List.filter_congr fun offer among => ?_
    rw [refusedBut_eq once _ among]
    by_cases same : offer.names = other.names
    · simp [same]
    · simp [same, Ne.symm same]
  have kept' : offersOf version authz (request.without version
        (refusedBut (offersOf version authz request) none)) =
      (offersOf version authz request).filter Offered.fits := by
    rw [left']
    refine List.filter_congr fun offer among => ?_
    rw [refusedBut_eq once _ among]
    simp
  unfold sent at same
  rw [fitting, fitting', kept, kept'] at same
  exact differ same

/-- A request's replies are all truthful when it gets none, or when the names it repeats are
taken down in time and no refused region is in another domain's way. -/
theorem truthful_iff (version : Int) (authz : AuthzContext) (request : Request) :
    (∀ history weather later topics,
      handle version authz request weather (.after history) = (later, .reply topics) →
      Truthful version authz request history weather later topics) ↔
    (unanswerable request version = false → request.acks ≠ 0 →
      Reserved version authz request ∧ Unobstructed version authz request) := by
  constructor
  · intro all open_ heard
    exact ⟨reserved_of open_ heard all, unobstructed_of open_ heard all⟩
  · intro clear history weather later topics h
    obtain ⟨open_, heard, -, -⟩ := (handle_eq_reply (Shard.sound_after history)).mp h
    obtain ⟨reserved, unobstructed⟩ := clear open_ heard
    exact truthful_of reserved unobstructed h

end

/-- A topic in a customer's domain, whose sealer hands back a region that is not encrypted,
and one in the default domain. -/
def cloggedLookups : Lookups where
  partitionCount := fun _ => some 1
  topicKeyDomain := fun topic =>
    some (if topic.name = "a" then .customer .k else .defaultDomain)
  sealer := fun _ _ _ bytes => .ok ⟨bytes, .none,
    ⟨.k, [0], List.replicate nonceBytes 0, by decide, by decide⟩⟩

def cloggedTopic (name : String) : Topic :=
  ⟨some name, [], none, [⟨0, some (bareBatch ⟨7, 0, 0⟩ 1), cloggedLookups⟩]⟩

def cloggedRequest : Request := ⟨1, [cloggedTopic "a", cloggedTopic "b"], by decide⟩

/-- The empty bundle opened for the refused region fails the flush before the other topic's
is sent, which would be stored if the refused one were not asked for. -/
theorem clogged_untruthful : ¬ ∀ history weather later topics,
    handle 9 ⟨none, false, []⟩ cloggedRequest weather (.after history) = (later, .reply topics) →
    Truthful 9 ⟨none, false, []⟩ cloggedRequest history weather later topics := by
  intro all
  have reply : (handle 9 ⟨none, false, []⟩ cloggedRequest (fun _ => fair) (.after [])).2 =
      .reply [(.name "a", [⟨0, ErrorCode.invalidRequest, -1⟩]),
        (.name "b", [⟨0, ErrorCode.notEnoughReplicas, -1⟩])] := by decide +kernel
  have alone : (handle 9 ⟨none, false, []⟩ (cloggedRequest.without 9 fun names =>
        decide (names = (some "a", 0))) (fun _ => fair) (.after [])).2 =
      .reply [(.name "a", []), (.name "b", [⟨0, ErrorCode.none, 0⟩])] := by decide +kernel
  have refused : ∀ pair ∈ slotted 9 ⟨none, false, []⟩ cloggedRequest,
      decide (pair.1.names = (some "a", 0)) = true → ∃ code, pair.2.slot = .refused code := by
    intro pair among named
    have slots : (slotted 9 ⟨none, false, []⟩ cloggedRequest).map
        (fun pair => (pair.1.names, pair.2.slot)) =
        [((some "a", 0), .refused ErrorCode.invalidRequest), ((some "b", 0), .pushed 0)] := by
      decide +kernel
    have here := List.mem_map_of_mem (f := fun pair => (pair.1.names, pair.2.slot)) among
    rw [slots] at here
    rcases List.mem_cons.mp here with same | here
    · exact ⟨_, (Prod.mk.inj same).2⟩
    · have other := (Prod.mk.inj (List.mem_singleton.mp here)).1
      rw [decide_eq_true_eq, other] at named
      exact absurd named (by decide)
  rcases h : handle 9 ⟨none, false, []⟩ cloggedRequest (fun _ => fair) (.after []) with
    ⟨later, response⟩
  rw [h] at reply
  obtain rfl : response = _ := reply
  have same := (all _ _ _ _ h).independent _ _ refused alone
  have codes := congrArg (List.map fun pair => pair.2.errorCode) same
  exact absurd codes (by decide +kernel)

end Oqueue.Broker.Produce
