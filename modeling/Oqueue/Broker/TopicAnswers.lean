import Oqueue.Broker.TopicAdmin

/-!
# CreateTopics and DeleteTopics answer what happened

A request is told that it created a topic only if it was its catalog write that founded it,
and that it deleted one only if it put the tombstone. A name is founded once and buried
once. A creation without a principal whose write finds the topic there is told all the same
that it created it.
-/

namespace Oqueue.Broker

open Segment Bytes Asks CatalogStore

structure Accessible (initial : Nat → TopicGrants) (s : CatalogStore) (h : TopicAccess) : Prop where
  granted : ∀ creator topic, (creator, topic) ∈ h.granted →
    ∃ entry, s.Records topic entry ∧ entry.creator = some creator
  loads : ∀ node creator topics, (node, creator, topics) ∈ h.loads → ∀ topic ∈ topics,
    ∃ entry, s.Records topic entry ∧ entry.creator = some creator
  grants : ∀ node held, held ∈ h.grants node → held ∈ initial node ∨ held ∈ h.granted

namespace Accessible

variable {initial : Nat → TopicGrants} {s t : CatalogStore} {h : TopicAccess}

theorem later (accessible : Accessible initial s h) (later : Later s t) :
    Accessible initial t h where
  granted creator topic among := by
    obtain ⟨entry, records, owned⟩ := accessible.granted creator topic among
    exact ⟨entry, records.later later, owned⟩
  loads node creator topics among topic listed := by
    obtain ⟨entry, records, owned⟩ := accessible.loads node creator topics among topic listed
    exact ⟨entry, records.later later, owned⟩
  grants := accessible.grants

theorem grant (accessible : Accessible initial s h) (node : Nat) {creator : Principal}
    {topic : TopicId} (owned : ∃ entry, s.Records topic entry ∧ entry.creator = some creator) :
    Accessible initial s (h.grant node creator topic) where
  granted other held among := by
    rcases List.mem_cons.mp among with same | old
    · cases same
      exact owned
    · exact accessible.granted other held old
  loads := accessible.loads
  grants other held among := by
    by_cases same : other = node
    · subst same
      simp only [TopicAccess.grant, TopicAccess.onNode, Function.update_self] at among
      unfold TopicGrants.grant at among
      split at among
      · exact (accessible.grants other held among).imp_right (List.mem_cons_of_mem _)
      · rcases List.mem_append.mp among with old | new
        · exact (accessible.grants other held old).imp_right (List.mem_cons_of_mem _)
        · exact .inr (List.mem_cons.mpr (.inl (List.mem_singleton.mp new)))
    · simp only [TopicAccess.grant, TopicAccess.onNode, Function.update_of_ne same] at among
      exact (accessible.grants other held among).imp_right (List.mem_cons_of_mem _)

theorem revokeTopic (accessible : Accessible initial s h) (node : Nat) (topic : TopicId) :
    Accessible initial s (h.revokeTopic node topic) where
  granted := accessible.granted
  loads := accessible.loads
  grants other held among := by
    by_cases same : other = node
    · subst same
      simp only [TopicAccess.revokeTopic, TopicAccess.onNode, Function.update_self] at among
      exact accessible.grants other held (List.mem_of_mem_filter among)
    · simp only [TopicAccess.revokeTopic, TopicAccess.onNode, Function.update_of_ne same] at among
      exact accessible.grants other held among

theorem loaded (accessible : Accessible initial s h) (node : Nat) {creator : Principal}
    {topics : List TopicId}
    (owned : ∀ topic ∈ topics, ∃ entry, s.Records topic entry ∧ entry.creator = some creator) :
    Accessible initial s { h with loads := (node, creator, topics) :: h.loads } where
  granted := accessible.granted
  loads other owner found among := by
    rcases List.mem_cons.mp among with same | old
    · cases same
      exact owned
    · exact accessible.loads other owner found old
  grants := accessible.grants

theorem restore (accessible : Accessible initial s h) (node : Nat) {creator : Principal}
    {live : List TopicId} (deleted : List TopicId)
    (owned : ∀ topic ∈ live, ∃ entry, s.Records topic entry ∧ entry.creator = some creator) :
    Accessible initial s (h.serve none (.restore node creator live deleted)).1 := by
  have granted : Accessible initial s
      (live.foldl (fun access topic => access.grant node creator topic) h) := by
    clear deleted
    induction live generalizing h with
    | nil => exact accessible
    | cons topic live ih =>
      exact ih (accessible.grant node (owned topic List.mem_cons_self)) fun other among =>
        owned other (List.mem_cons_of_mem _ among)
  change Accessible initial s (deleted.foldl (fun access topic => access.revokeTopic node topic) _)
  clear owned accessible
  generalize live.foldl (fun access topic => access.grant node creator topic) h = access at granted
  induction deleted generalizing access with
  | nil => exact granted
  | cons topic deleted ih => exact ih _ (granted.revokeTopic node topic)

end Accessible

theorem TopicAccess.mem_of_cached {self : TopicAccess} {node : Nat} {creator : Principal}
    {pick : Option Nat} {topics : List TopicId}
    (cached : self.cached node creator pick = some topics) :
    ∃ other, (other, creator, topics) ∈ self.loads := by
  obtain ⟨place, -, picked⟩ := Option.bind_eq_some_iff.mp cached
  obtain ⟨⟨other, owner, found⟩, among, same⟩ := List.mem_filterMap.mp (List.mem_of_getElem? picked)
  dsimp only at same
  split at same
  · rename_i owns
    cases same
    exact ⟨other, owns.2 ▸ among⟩
  · cases same

def access (root : List UInt8) (initial : Nat → TopicGrants) (used : TopicId → Prop)
    (allowed : CatalogStore → CatalogRequest → Weather → Prop) :
    Own (CatalogCall.shared root used allowed) TopicAccess (Option Nat) AccessRequest
      AccessRequest.Answer where
  serve _ h request pick := h.serve pick request
  fits := Accessible initial
  lasts later accessible := accessible.later later

section
variable {root : List UInt8} {initial : Nat → TopicGrants}
  {allowed : CatalogStore → CatalogRequest → Weather → Prop} {who : Nat}

abbrev TopicWorld := Around CatalogStore TopicAccess CatalogRequest

variable (root initial allowed) in
/-- The catalog with the brokers' grants, as the handlers share them. -/
abbrev admin : Resource Nat TopicWorld (Turn Weather (Option Nat))
    (Await CatalogRequest AccessRequest) (Await.Answer CatalogRequest.Answer AccessRequest.Answer) :=
  Around.shared' (access root initial TopicId.Typed allowed)

variable {w : TopicWorld}

theorem timeout_meets {α : Type} {ok : CatalogStore → α → Prop} {call : CatalogCall α}
    (ends : Ends (CatalogCall.shared root TopicId.Typed allowed) who ok (fun _ _ => True) call
      w.state) :
    (Admin.timeout call).Meets (admin root initial allowed) who
      (fun v result => ∀ a, result = some (.ok a) → ok v.state a) w := by
  refine Meets.mono (Around.within_meets ends) ?_
  rintro v result _ _ told a rfl
  exact told (.ok a) rfl

theorem access_meets {request : AccessRequest} {post : TopicWorld → request.Answer → Prop}
    (serves : ∀ v : TopicWorld, CatalogStore.Later w.state v.state →
      Accessible initial v.state v.own → ∀ pick,
      Accessible initial v.state (v.own.serve pick request).1 ∧
      ∀ u : TopicWorld, CatalogStore.Later v.state u.state → post u (v.own.serve pick request).2) :
    (Admin.access request).Meets (admin root initial allowed) who post w :=
  Around.own_meets fun v later holds pick => serves v later holds.2.1 pick

theorem grantCreated_meets {context : CreateContext} {name : TopicId}
    (owned : ∀ creator, context.principal = some creator →
      ∃ entry, w.state.Records name entry ∧ entry.creator = some creator) :
    (CreateTopics.grantCreated context name).Meets (admin root initial allowed) who
      (fun _ _ => True) w := by
  unfold CreateTopics.grantCreated
  split
  · rename_i creator principal
    obtain ⟨entry, records, made⟩ := owned creator principal
    refine access_meets fun v later accessible _ => ⟨?_, fun _ _ => trivial⟩
    exact accessible.grant _ ⟨entry, records.later later, made⟩
  · exact Meets.done fun _ _ _ => trivial

/-- This call's write founded the topic, as it was asked for. -/
def Founds (who : Nat) (name : TopicId) (partitions : Nat) (principal : Option Principal)
    (s : CatalogStore) (entry : CatalogEntry) : Prop :=
  s.founder.lookup name = some who ∧ s.Records name entry ∧ entry.partitions = partitions ∧
    entry.creator = principal

theorem Founds.later {name : TopicId} {partitions : Nat} {principal : Option Principal}
    {s t : CatalogStore} {entry : CatalogEntry}
    (founds : Founds who name partitions principal s entry)
    (later : CatalogStore.Later s t) : Founds who name partitions principal t entry := by
  obtain ⟨founder, records, same⟩ := founds
  exact ⟨later.founder name who founder, records.later later, same⟩

theorem persist_meets (clear : CatalogCall.Clear allowed) {name : TopicId} {partitions : Nat}
    {principal : Option Principal} (typed : name.Typed) (few : partitions < 2 ^ 32)
    (named : ∀ creator, principal = some creator → creator.isEmpty = false)
    (holds : (admin root initial allowed).inv w) :
    (CreateTopics.persist name partitions principal).Meets (admin root initial allowed) who
      (fun v result => ∀ entry, result = some (some (entry, true)) →
        Founds who name partitions principal v.state entry) w := by
  unfold CreateTopics.persist
  split
  · rename_i creator
    refine Meets.bind holds (timeout_meets (CatalogCall.insertOwned_ends (fun _ _ => trivial)
      typed typed few (named creator rfl) holds.1)) fun v result _ _ told => ?_
    refine Meets.done fun u later holds entry same => ?_
    obtain ⟨ended, rfl, same⟩ := Option.map_eq_some_iff.mp same
    cases ended with
    | error e => cases same
    | ok outcome =>
      cases same
      obtain ⟨settles, made⟩ := told u later holds _ rfl
      obtain ⟨founder, rfl⟩ := made rfl
      exact ⟨founder, settles.2.1, rfl, rfl⟩
  · refine Meets.bind holds (timeout_meets (CatalogCall.insertWithKeyDomain_ends
      (fun _ _ => trivial) .defaultDomain typed typed few holds.1)) fun v result _ _ told => ?_
    refine Meets.done fun u later holds entry same => ?_
    obtain ⟨ended, rfl, same⟩ := Option.map_eq_some_iff.mp same
    cases ended with
    | error e => cases same
    | ok found =>
      cases same
      obtain ⟨settles, made⟩ := told u later holds _ rfl
      obtain ⟨founder, rfl⟩ := made clear
      exact ⟨founder, settles.2.1, rfl, rfl⟩

/-- What an answer to a creation says; a request that only validates creates nothing. -/
def CreateTruthful (who : Nat) (requested : CreatableTopic) (context : CreateContext)
    (s : CatalogStore) (response : CreateTopicsResponseTopic) : Prop :=
  context.validateOnly = false →
    (response.errorCode = ErrorCode.none → ∃ name partitions entry,
      CreateTopics.validate requested = .ok (name, partitions) ∧
      Founds who name partitions context.principal s entry ∧
      response.numPartitions = partitions) ∧
    (context.authorized = true → (∃ asked, CreateTopics.validate requested = .ok asked) →
      response.errorCode = ErrorCode.none ∨ response.errorCode = ErrorCode.topicAlreadyExists ∨
        response.errorCode = ErrorCode.unknownServerError ∨
        response.errorCode = ErrorCode.requestTimedOut)

theorem createOne_meets (clear : CatalogCall.Clear allowed) (requested : CreatableTopic)
    (context : CreateContext) (holds : (admin root initial allowed).inv w) :
    (CreateTopics.createOne requested context).Meets (admin root initial allowed) who
      (fun v response => CreateTruthful who requested context v.state response) w := by
  have asked := CreateTopics.validate_spec requested
  unfold CreateTopics.createOne
  dsimp only
  split
  · rename_i unauthorized
    refine Meets.done fun v _ _ _ => ⟨nofun, fun authorized => ?_⟩
    simp [authorized] at unauthorized
  · split
    · rename_i code message invalid
      rw [invalid] at asked
      refine Meets.done fun v _ _ _ => ⟨fun none => absurd none asked, fun _ valid => ?_⟩
      obtain ⟨_, valid⟩ := valid
      cases invalid.symm.trans valid
    · rename_i name partitions valid
      rw [valid] at asked
      obtain ⟨typed, few⟩ := asked
      have few : partitions < 2 ^ 31 := Nat.lt_of_le_of_lt few (by decide)
      split
      · rename_i only
        exact Meets.done fun v _ _ creates => by simp [only] at creates
      · refine Meets.bind holds (persist_meets clear typed (by omega) context.named holds)
          fun v result _ inv told => ?_
        split
        · exact Meets.done fun _ _ _ _ => ⟨nofun, fun _ _ => .inr (.inr (.inr rfl))⟩
        · exact Meets.done fun _ _ _ _ => ⟨nofun, fun _ _ => .inr (.inr (.inl rfl))⟩
        · rename_i entry created
          split
          · exact Meets.done fun _ _ _ _ => ⟨nofun, fun _ _ => .inr (.inl rfl)⟩
          · rename_i made
            obtain rfl : created = true := by simpa using made
            have founds : Founds who name partitions context.principal v.state entry :=
              told v (Resource.refl _ v) inv entry rfl
            refine Meets.bind inv (grantCreated_meets fun creator principal =>
              ⟨entry, founds.2.1, founds.2.2.2.trans principal⟩) fun u _ moved _ _ => ?_
            refine Meets.done fun t later _ _ => ⟨fun _ => ?_, fun _ _ => .inl rfl⟩
            have founds := founds.later (moved.trans later)
            refine ⟨name, partitions, entry, valid, founds, ?_⟩
            rw [← founds.2.2.1] at few ⊢
            change min (entry.partitions : Int) (2 ^ 31 - 1) = entry.partitions
            omega

/-- What an answer to a deletion says: this call buried a topic that had been founded. -/
def DeleteTruthful (who : Nat) (s : CatalogStore) (response : DeleteTopicsResponseTopic) : Prop :=
  response.errorCode = ErrorCode.none → ∃ name : TopicId, response.name = some name.name ∧
    s.burier.lookup name = some who ∧ (s.founder.lookup name).isSome

theorem refuses {s : CatalogStore} {response : DeleteTopicsResponseTopic}
    (error : response.errorCode ≠ ErrorCode.none) : DeleteTruthful who s response :=
  fun none => absurd none error

theorem revokeTopic_meets (node : Nat) (name : TopicId) :
    (DeleteTopics.revokeTopic node name).Meets (admin root initial allowed) who
      (fun _ _ => True) w :=
  access_meets fun _ _ accessible _ => ⟨accessible.revokeTopic node name, fun _ _ => trivial⟩

theorem lookup_meets (name : TopicId) (holds : (admin root initial allowed).inv w) :
    (Admin.timeout (CatalogCall.find name)).Meets (admin root initial allowed) who
      (fun _ _ => True) w :=
  Meets.mono (timeout_meets (Ends.mono (CatalogCall.find_ends (fun _ _ _ => trivial) holds.1
    fun _ _ _ => trivial) (fun _ _ _ _ _ => trivial) fun _ _ _ _ _ => trivial))
    fun _ _ _ _ _ => trivial

theorem reconcile_meets (node : Nat) (name : TopicId)
    (holds : (admin root initial allowed).inv w) :
    (DeleteTopics.reconcileInterruptedDelete node name).Meets (admin root initial allowed) who
      (fun _ _ => True) w := by
  refine Meets.bind holds (lookup_meets name holds) fun v result _ _ _ => ?_
  split
  · exact revokeTopic_meets node name
  · exact Meets.done fun _ _ _ => trivial

theorem clusterDelete_meets (name : TopicId) (expectedId : Option (BitVec 128))
    (holds : (admin root initial allowed).inv w) :
    (Admin.timeout (DeleteTopics.clusterDelete name expectedId)).Meets (admin root initial allowed)
      who (fun v result => ∀ entry, result = some (.ok (.deleted entry)) →
        v.state.burier.lookup name = some who ∧ v.state.Records name entry) w := by
  refine Meets.mono (timeout_meets (Ends.tryCatch holds.1
    (CatalogCall.deleteTopic_ends (fun _ _ => trivial) expectedId holds.1) fun t e _ kept _ => ?_))
    fun v result _ _ told entry same => ?_
  · refine Ends.bind kept (Ends.tryCatch kept (Ends.mono (CatalogCall.find_ends
      (fun _ _ _ => trivial) kept fun _ _ _ => trivial) (fun _ _ _ _ _ => trivial)
      fun _ _ _ _ _ => trivial) fun u e _ _ _ => Ends.pure fun _ _ _ => trivial) fun u _ _ _ _ => ?_
    exact Ends.throw fun _ _ _ => trivial
  · obtain ⟨buried, -, records⟩ := told _ same entry rfl
    exact ⟨buried, records⟩

theorem topicNameById_meets (cache : NameCache) (id : BitVec 128)
    (holds : (admin root initial allowed).inv w) :
    (DeleteTopics.topicNameById cache id).Meets (admin root initial allowed) who
      (fun _ _ => True) w := by
  have ends : Ends (CatalogCall.shared root TopicId.Typed allowed) who _ (fun _ _ => True)
      (CatalogCall.findId id) w.state :=
    CatalogCall.findId_ends (fun _ _ _ => trivial) (fun _ typed => typed) holds.1
      fun _ _ _ _ _ _ => trivial
  unfold DeleteTopics.topicNameById
  split
  · exact Meets.done fun _ _ _ => trivial
  · refine Meets.bind holds (timeout_meets ends) fun v result _ _ _ => ?_
    split <;> exact Meets.done fun _ _ _ => trivial

/-- A request whose topic is not found is refused. -/
theorem resolve_meets {requested : DeletableTopic} {context : DeleteContext}
    {expectedId : Option (BitVec 128)}
    {invalid : Int → String → Option String → BitVec 128 → DeleteTopicsResponseTopic}
    (codes : ∀ code message name id, (invalid code message name id).errorCode = code)
    (holds : (admin root initial allowed).inv w) :
    (DeleteTopics.resolve requested context expectedId invalid).Meets (admin root initial allowed)
      who (fun _ result => ∀ response, result = .error response →
        response.errorCode ≠ ErrorCode.none) w := by
  have refused {v : TopicWorld} (code : Int) (message : String) (name : Option String)
      (error : code ≠ ErrorCode.none) :
      (Asks.done (.error (invalid code message name requested.topicId)) :
        Admin (Except DeleteTopicsResponseTopic TopicId)).Meets (admin root initial allowed) who
        (fun _ result => ∀ response, result = .error response →
          response.errorCode ≠ ErrorCode.none) v := by
    refine Meets.done fun _ _ _ response same => ?_
    cases same
    exact fun none => error ((codes code message name requested.topicId).symm.trans none)
  have found {v : TopicWorld} (name : TopicId) : (Asks.done (.ok name) :
      Admin (Except DeleteTopicsResponseTopic TopicId)).Meets (admin root initial allowed) who
      (fun _ result => ∀ response, result = .error response →
        response.errorCode ≠ ErrorCode.none) v := Meets.done fun _ _ _ _ => nofun
  unfold DeleteTopics.resolve
  split
  · split
    · exact found _
    · exact refused _ _ _ (by decide)
  · split
    · exact refused _ _ _ (by decide)
    · refine Meets.bind holds (topicNameById_meets _ _ holds) fun v result _ _ _ => ?_
      split
      · exact refused _ _ _ (by decide)
      · exact refused _ _ _ (by decide)
      · split
        · exact found _
        · exact refused _ _ _ (by decide)

theorem deleteOne_meets (requested : DeletableTopic) (context : DeleteContext)
    (holds : (admin root initial allowed).inv w) :
    (DeleteTopics.deleteOne requested context).Meets (admin root initial allowed) who
      (fun v response => DeleteTruthful who v.state response) w := by
  unfold DeleteTopics.deleteOne
  dsimp only
  split
  · exact Meets.done fun _ _ _ => refuses
            (show ErrorCode.topicAuthorizationFailed ≠ ErrorCode.none by decide)
  · refine Meets.bind holds (resolve_meets (fun _ _ _ _ => rfl) holds) fun v result _ inv told => ?_
    split
    · rename_i response
      exact Meets.done fun _ _ _ => refuses (told v (Resource.refl _ v) inv response rfl)
    · rename_i name
      refine Meets.bind inv (clusterDelete_meets name _ inv) fun u result _ inv told => ?_
      split
      · exact Meets.bind inv (reconcile_meets _ name inv) fun _ _ _ _ _ =>
          Meets.done fun _ _ _ => refuses
            (show ErrorCode.requestTimedOut ≠ ErrorCode.none by decide)
      · exact Meets.bind inv (reconcile_meets _ name inv) fun _ _ _ _ _ =>
          Meets.done fun _ _ _ => refuses
            (show ErrorCode.unknownServerError ≠ ErrorCode.none by decide)
      · rename_i entry
        refine Meets.bind inv (revokeTopic_meets _ name) fun t _ moved _ _ => ?_
        refine Meets.done fun x later held _ => ⟨name, rfl, ?_⟩
        obtain ⟨buried, records⟩ := told x (Resource.trans _ moved later) held entry rfl
        obtain ⟨body, recorded, -⟩ := records
        exact ⟨buried, (held.1.founded name).mpr (Option.isSome_iff_exists.mpr ⟨body, recorded⟩)⟩
      · exact Meets.bind inv (revokeTopic_meets _ name) fun _ _ _ _ _ =>
          Meets.done fun _ _ _ => refuses
            (show ErrorCode.unknownTopicOrPartition ≠ ErrorCode.none by decide)
      · exact Meets.done fun _ _ _ => refuses
            (show ErrorCode.unknownTopicOrPartition ≠ ErrorCode.none by decide)
      · exact Meets.done fun _ _ _ => refuses
            (show ErrorCode.unknownTopicId ≠ ErrorCode.none by decide)

def Made (creator : Principal) (s : CatalogStore) (topics : List TopicId) : Prop :=
  ∀ topic ∈ topics, ∃ entry, s.Records topic entry ∧ entry.creator = some creator

theorem Made.later {creator : Principal} {s t : CatalogStore} {topics : List TopicId}
    (made : Made creator s topics) (later : CatalogStore.Later s t) : Made creator t topics := by
  intro topic among
  obtain ⟨entry, records, owned⟩ := made topic among
  exact ⟨entry, records.later later, owned⟩

theorem Made.append {creator : Principal} {s : CatalogStore} {topics more : List TopicId}
    (made : Made creator s topics) (further : Made creator s more) :
    Made creator s (topics ++ more) := fun topic among =>
  (List.mem_append.mp among).elim (made topic) (further topic)

theorem loadCreatorTopics_ends {s : CatalogStore} (creator : Principal) (pageFuel fuel : Nat)
    (after : Option TopicId) {topics : List TopicId} (kept : s.Kept TopicId.Typed)
    (made : Made creator s topics) :
    Ends (CatalogCall.shared root TopicId.Typed allowed) who
      (fun t found => ∀ topics, found = some topics → Made creator t topics) (fun _ _ => True)
      (CreatorGrants.loadCreatorTopics root creator pageFuel fuel after topics) s := by
  induction fuel generalizing s after topics with
  | zero => exact Ends.pure fun _ _ _ => nofun
  | succ fuel ih =>
    refine Ends.bind kept (CatalogCall.ownedPage_ends (fun _ _ => trivial) creator pageFuel after
      CreatorGrants.listPage kept) fun t page later keptT listed => ?_
    split
    · exact Ends.pure fun _ _ _ => nofun
    · rename_i page
      have more : Made creator t (topics ++ page) :=
        (made.later later).append fun topic among => (listed page rfl topic among).1
      split
      · refine Ends.pure fun u later _ => ?_
        rintro _ ⟨⟩
        exact more.later later
      · exact ih _ keptT more

theorem creatorTopics_meets (node : Nat) (creator : Principal) (pageFuel fuel : Nat)
    (holds : (admin root initial allowed).inv w) :
    (CreatorGrants.creatorTopics root node creator pageFuel fuel).Meets (admin root initial allowed)
      who (fun v found => ∀ topics, found = some topics → Made creator v.state topics) w := by
  have cached : (Admin.access (.creatorTopics node creator)).Meets (admin root initial allowed) who
      (fun v (found : Option (List TopicId)) => ∀ topics, found = some topics →
        Made creator v.state topics) w := by
    refine access_meets fun v _ accessible pick => ⟨accessible, fun u later topics found => ?_⟩
    obtain ⟨other, among⟩ := TopicAccess.mem_of_cached found
    exact Made.later (accessible.loads other creator topics among) later
  refine Meets.bind holds cached fun v found _ inv made => ?_
  split
  · rename_i topics
    exact Meets.done fun u later held => made u later held
  · refine Meets.bind inv (timeout_meets (loadCreatorTopics_ends creator pageFuel fuel none inv.1
      nofun)) fun u result _ inv loaded => ?_
    split
    · rename_i topics
      have made : Made creator u.state topics := loaded u (Resource.refl _ u) inv _ rfl topics rfl
      have keeps : (Admin.access (.loaded node creator topics)).Meets (admin root initial allowed)
          who (fun _ _ => True) u :=
        access_meets fun t later accessible _ =>
          ⟨accessible.loaded node (made.later later), fun _ _ => trivial⟩
      refine Meets.bind inv keeps fun t _ later _ _ => ?_
      refine Meets.done fun x further _ => ?_
      rintro _ ⟨⟩
      exact made.later (later.trans further)
    · exact Meets.done fun _ _ _ => nofun

theorem validate_meets (creator : Principal) (topics : List TopicId) {live : List TopicId}
    (deleted : List TopicId) (holds : (admin root initial allowed).inv w)
    (made : Made creator w.state topics) (seen : Made creator w.state live) :
    (CreatorGrants.validate topics live deleted).Meets (admin root initial allowed) who
      (fun v found => Made creator v.state found.1) w := by
  induction topics generalizing w live deleted with
  | nil => exact Meets.done fun v later _ => seen.later later
  | cons topic topics ih =>
    have looked : (Await.whole (CatalogCall.find topic).run).Meets (admin root initial allowed) who
        (fun _ _ => True) w :=
      Meets.mono (Around.whole_meets (CatalogCall.find_ends (fun _ _ _ => trivial) holds.1
        fun _ _ _ => trivial)) fun _ _ _ _ _ => trivial
    refine Meets.bind holds looked fun v result later inv _ => ?_
    have made := made.later later
    have seen := seen.later later
    have rest : Made creator v.state topics := fun other among =>
      made other (List.mem_cons_of_mem _ among)
    split
    · refine ih _ inv rest (seen.append fun other among => ?_)
      exact List.mem_singleton.mp among ▸ made topic List.mem_cons_self
    · exact ih _ inv rest seen
    · exact ih _ inv rest seen

theorem hydrate_meets (node : Nat) (creator : Principal) (pageFuel fuel : Nat)
    (holds : (admin root initial allowed).inv w) :
    (CreatorGrants.hydrate root node creator pageFuel fuel).Meets (admin root initial allowed) who
      (fun _ _ => True) w := by
  refine Meets.bind holds (creatorTopics_meets node creator pageFuel fuel holds)
    fun v found _ inv made => ?_
  split
  · exact Meets.done fun _ _ _ => trivial
  · rename_i topics
    have made : Made creator v.state topics := made v (Resource.refl _ v) inv topics rfl
    refine Meets.bind inv (validate_meets creator topics [] inv made nofun)
      fun u checked _ inv live => ?_
    have live : Made creator u.state checked.1 := live u (Resource.refl _ u) inv
    exact access_meets fun t later accessible _ =>
      ⟨accessible.restore node checked.2 (live.later later), fun _ _ => trivial⟩

/-- What an answer says of the catalog. -/
def Truthful (who : Nat) (w : TopicWorld) : TopicOp → TopicAnswer → Prop
  | .create requested context, .created response =>
    CreateTruthful who requested context w.state response
  | .delete _ _, .deleted response => DeleteTruthful who w.state response
  | _, _ => True

theorem program_meets (clear : CatalogCall.Clear allowed) (op : TopicOp)
    (holds : (admin root initial allowed).inv w) :
    (op.program root).Meets (admin root initial allowed) who
      (fun v answer => Truthful who v op answer) w := by
  cases op with
  | create requested context =>
    exact Meets.bind holds (createOne_meets clear requested context holds) fun v _ _ _ told =>
      Meets.done fun u later inv => told u later inv
  | delete requested context =>
    exact Meets.bind holds (deleteOne_meets requested context holds) fun v _ _ _ told =>
      Meets.done fun u later inv => told u later inv
  | hydrate node creator pageFuel fuel =>
    exact Meets.bind holds (hydrate_meets node creator pageFuel fuel holds) fun _ _ _ _ _ =>
      Meets.done fun _ _ _ => trivial
  | straggler place =>
    exact Meets.bind holds (Around.landed_meets place) fun _ _ _ _ _ =>
      Meets.done fun _ _ _ => trivial

end

abbrev TopicPool :=
  Pool TopicWorld TopicOp (Await CatalogRequest AccessRequest)
    (Await.Answer CatalogRequest.Answer AccessRequest.Answer) TopicAnswer

/-- Nothing in the catalog, and the grants that were configured. -/
def TopicPool.start (initial : Nat → TopicGrants) : TopicPool :=
  { state := { state := {}, own := { grants := initial } } }

/-- No topic without a creator is refused because the topic is there. -/
def Unraced (s : CatalogStore) : CatalogRequest → Weather → Prop
  | .putAbsent (.topic name) body, .fine _ =>
    ∀ entry ∈ (StoredCatalog.decode body).toOption, entry.creator = none →
      s.get (.topic name) = none
  | _, _ => True

instance (s : CatalogStore) : (request : CatalogRequest) → (weather : Weather) →
    Decidable (Unraced s request weather)
  | .putAbsent (.topic name) body, .fine _ => inferInstanceAs
      (Decidable (∀ entry ∈ (StoredCatalog.decode body).toOption, entry.creator = none →
        s.get (.topic name) = none))
  | .putAbsent (.topic _) _, .failing _ _ _ | .putAbsent (.id _) _, _
  | .putAbsent (.owner _ _) _, _ | .putAbsent (.tombstone _) _, _ | .putAbsent (.retention _) _, _
  | .get _, _ | .deleteOne _, _ | .list _ _ _, _ => isTrue trivial

instance (root : List UInt8) (initial : Nat → TopicGrants) (who : Nat) (w : TopicWorld)
    (request : Await CatalogRequest AccessRequest) (turn : Turn Weather (Option Nat)) :
    Decidable ((admin root initial Unraced).allows who w request turn) :=
  haveI (i : Nat) (s : CatalogStore) (asked : CatalogRequest) (weather : Weather) :
      Decidable ((CatalogCall.shared root TopicId.Typed Unraced).allows i s asked weather) :=
    inferInstanceAs (Decidable (Unraced s asked weather))
  inferInstanceAs (Decidable (Around.Allows (CatalogCall.shared root TopicId.Typed Unraced) who w
    request turn))

section
variable (root : List UInt8) (initial : Nat → TopicGrants)

abbrev TopicAction := Pool.Action TopicOp (Turn Weather (Option Nat))

abbrev TopicPool.step (pool : TopicPool) (action : TopicAction) : Option TopicPool :=
  Pool.step (TopicOp.program root) (admin root initial Unraced).serve pool action

def TopicPool.ToldCreated (pool : TopicPool) (i : Nat) (name : TopicId) (partitions : Nat)
    (response : CreateTopicsResponseTopic) : Prop :=
  ∃ requested context, context.validateOnly = false ∧
    CreateTopics.validate requested = .ok (name, partitions) ∧
    pool.Returned i (.create requested context) (.created response) ∧
    response.errorCode = ErrorCode.none

def TopicPool.ToldDeleted (pool : TopicPool) (i : Nat) (name : String) : Prop :=
  ∃ requested context response, pool.Returned i (.delete requested context) (.deleted response) ∧
    response.errorCode = ErrorCode.none ∧ response.name = some name

theorem topic_answers_run {actions : List TopicAction}
    {last : TopicPool}
    (unraced : Pool.AllAllowed (admin root initial Unraced) (TopicOp.program root)
      (TopicPool.start initial) actions)
    (ran : Steps.run (TopicPool.step root initial) (TopicPool.start initial) actions = some last) :
    (admin root initial Unraced).inv last.state ∧
      ∀ i op answer, last.Returned i op answer → Truthful i last.state op answer := by
  have clear : CatalogCall.Clear Unraced := by
    intro s name body entry picked permitted decoded unowned
    exact permitted entry (by rw [decoded]; rfl) unowned
  have begun : (admin root initial Unraced).inv (TopicPool.start initial).state := by
    refine ⟨start_kept _, ⟨nofun, nofun, fun _ _ held => .inl held⟩, nofun⟩
  have runs := Pool.run_keeps (fun op i _ w answer => Truthful i w op answer)
    (fun op i w holds => program_meets clear op holds) begun
    (fun _ => Resource.refl _ (TopicPool.start initial).state) nofun unraced ran
  obtain ⟨inv, -, keeps⟩ := runs
  refine ⟨inv, fun i op answer returned => ?_⟩
  obtain ⟨_, -, told⟩ := Pool.Keeps.returned inv returned keeps
  exact told

variable {root initial}

/-- However creations, deletions and loads of grants interleave, on however many nodes, with
deadlines that drop their catalog calls at any request: if no topic without a creator is
refused by the store because the topic is there, then at most one creation of a name is told
that it created it, as it was asked for, and every other valid one that the topic exists or an
error; at most one deletion of a name is told that it deleted it, and only of a topic that was
founded; and a principal is only granted what the catalog records it as the creator of. -/
theorem topic_answers_truthful {actions : List TopicAction} {last : TopicPool}
    (unraced : Pool.AllAllowed (admin root initial Unraced) (TopicOp.program root)
      (TopicPool.start initial) actions)
    (ran : Steps.run (TopicPool.step root initial) (TopicPool.start initial) actions = some last) :
    (∀ i j name partitions partitions' response response',
      last.ToldCreated i name partitions response → last.ToldCreated j name partitions' response' →
      i = j ∧ response.numPartitions = partitions) ∧
    (∀ i requested context response asked,
      last.Returned i (.create requested context) (.created response) →
      context.validateOnly = false → context.authorized = true →
      CreateTopics.validate requested = .ok asked →
      response.errorCode = ErrorCode.none ∨ response.errorCode = ErrorCode.topicAlreadyExists ∨
        response.errorCode = ErrorCode.unknownServerError ∨
        response.errorCode = ErrorCode.requestTimedOut) ∧
    (∀ i j name, last.ToldDeleted i name → last.ToldDeleted j name →
      i = j ∧ (last.state.state.founder.lookup ⟨name⟩).isSome) ∧
    (∀ creator topic, (creator, topic) ∈ last.state.own.granted →
      ∃ entry, last.state.state.Records topic entry ∧ entry.creator = some creator) ∧
    ∀ node creator topic, (creator, topic) ∈ last.state.own.grants node →
      (creator, topic) ∈ initial node ∨
        ∃ entry, last.state.state.Records topic entry ∧ entry.creator = some creator := by
  obtain ⟨⟨_, accessible, _⟩, told⟩ := topic_answers_run root initial unraced ran
  have created {i name partitions response} (made : last.ToldCreated i name partitions response) :
      last.state.state.founder.lookup name = some i ∧ response.numPartitions = partitions := by
    obtain ⟨requested, context, creates, valid, returned, none⟩ := made
    obtain ⟨other, _, entry, valid', founds, asked⟩ := (told i _ _ returned creates).1 none
    cases valid.symm.trans valid'
    exact ⟨founds.1, asked⟩
  have deleted {i name} (gone : last.ToldDeleted i name) :
      last.state.state.burier.lookup ⟨name⟩ = some i ∧
        (last.state.state.founder.lookup ⟨name⟩).isSome := by
    obtain ⟨requested, context, response, returned, none, named⟩ := gone
    obtain ⟨other, named', gone⟩ := told i _ _ returned none
    cases named.symm.trans named'
    exact gone
  refine ⟨?_, ?_, ?_, accessible.granted, fun node creator topic held => ?_⟩
  · intro i j name partitions partitions' response response' first second
    obtain ⟨founder, asked⟩ := created first
    exact ⟨Option.some.inj (founder.symm.trans (created second).1), asked⟩
  · intro i requested context response asked returned creates authorized valid
    exact (told i _ _ returned creates).2 authorized ⟨asked, valid⟩
  · intro i j name first second
    obtain ⟨burier, founded⟩ := deleted first
    exact ⟨Option.some.inj (burier.symm.trans (deleted second).1), founded⟩
  · exact (accessible.grants node _ held).imp_right (accessible.granted creator topic)

end

abbrev served (call : Nat) : TopicAction := .serve call { choice := .fine 0, mine := none }

def orders (partitions : Int) : CreatableTopic :=
  { name := "orders", numPartitions := partitions, replicationFactor := -1 }

def nobody : CreateContext where
  node := 0
  validateOnly := false
  authorized := true
  principal := none
  named := nofun

def alice : CreateContext where
  node := 0
  validateOnly := false
  authorized := true
  principal := some "alice"
  named := by rintro _ ⟨⟩; decide

def madeOrders (partitions : Int) : CreateTopicsResponseTopic where
  name := "orders"
  topicId := topicUuid ⟨"orders"⟩
  errorCode := ErrorCode.none
  errorMessage := none
  numPartitions := partitions
  replicationFactor := 1

def elsewhere : DeleteContext where
  node := 1
  version := 6
  authorized := true

def goneOrders : DeleteTopicsResponseTopic where
  name := some "orders"
  topicId := topicUuid ⟨"orders"⟩
  errorCode := ErrorCode.none
  errorMessage := some ""

def madeAndDeleted : List TopicAction :=
  .begin_ (.create (orders 3) alice) :: List.replicate 6 (served 0) ++
    .begin_ (.delete ⟨some "orders", 0⟩ elsewhere) :: List.replicate 8 (served 1)

theorem madeAndDeleted_outcomes : (Steps.run (TopicPool.step [] fun _ => [])
    (TopicPool.start fun _ => []) madeAndDeleted).map Pool.outcomes =
    some [(.create (orders 3) alice, some (.created (madeOrders 3))),
      (.delete ⟨some "orders", 0⟩ elsewhere, some (.deleted goneOrders))] := by
  decide +kernel

theorem topic_answers_truthful_orders : ∃ last, Steps.run (TopicPool.step [] fun _ => [])
    (TopicPool.start fun _ => []) madeAndDeleted = some last ∧
    (∀ j partitions response, TopicPool.ToldCreated last j ⟨"orders"⟩ partitions response → j = 0) ∧
    (∀ j, TopicPool.ToldDeleted last j "orders" → j = 1) ∧
    ∀ creator topic, (creator, topic) ∈ last.state.own.granted →
      ∃ entry, last.state.state.Records topic entry ∧ entry.creator = some creator := by
  obtain ⟨last, ran, outcomes⟩ := Option.map_eq_some_iff.mp madeAndDeleted_outcomes
  obtain ⟨creations, -, deletions, granted, -⟩ := topic_answers_truthful (by decide +kernel) ran
  have created : TopicPool.ToldCreated last 0 ⟨"orders"⟩ 3 (madeOrders 3) :=
    ⟨orders 3, alice, rfl, by decide, Pool.returned_of_outcomes (outcomes ▸ rfl), rfl⟩
  have deleted : TopicPool.ToldDeleted last 1 "orders" :=
    ⟨⟨some "orders", 0⟩, elsewhere, goneOrders, Pool.returned_of_outcomes (outcomes ▸ rfl), rfl,
      rfl⟩
  exact ⟨last, ran, fun j _ _ other => (creations _ _ _ _ _ _ _ other created).1,
    fun j other => (deletions _ _ _ other deleted).1, granted⟩

/-- Without a principal, a topic of one partition is made, and then one of three. -/
def madeTwice : List TopicAction :=
  .begin_ (.create (orders 1) nobody) :: List.replicate 4 (served 0) ++
    .begin_ (.create (orders 3) nobody) :: List.replicate 10 (served 1)

theorem madeTwice_outcomes : (Steps.run (TopicPool.step [] fun _ => [])
    (TopicPool.start fun _ => []) madeTwice).map Pool.outcomes =
    some [(.create (orders 1) nobody, some (.created (madeOrders 1))),
      (.create (orders 3) nobody, some (.created (madeOrders 1)))] := by
  decide +kernel

/-- Both are told that they created it, the second with the first one's partitions. -/
theorem created_twice : ∃ last, Steps.run (TopicPool.step [] fun _ => [])
    (TopicPool.start fun _ => []) madeTwice = some last ∧
    ¬ ∀ i j name partitions partitions' response response',
      TopicPool.ToldCreated last i name partitions response →
      TopicPool.ToldCreated last j name partitions' response' →
      i = j ∧ response.numPartitions = partitions := by
  obtain ⟨last, ran, outcomes⟩ := Option.map_eq_some_iff.mp madeTwice_outcomes
  have first : TopicPool.ToldCreated last 0 ⟨"orders"⟩ 1 (madeOrders 1) :=
    ⟨orders 1, nobody, rfl, by decide, Pool.returned_of_outcomes (outcomes ▸ rfl), rfl⟩
  have second : TopicPool.ToldCreated last 1 ⟨"orders"⟩ 3 (madeOrders 1) :=
    ⟨orders 3, nobody, rfl, by decide, Pool.returned_of_outcomes (outcomes ▸ rfl), rfl⟩
  refine ⟨last, ran, fun once => ?_⟩
  cases (once _ _ _ _ _ _ _ first second).1

end Oqueue.Broker
