import Oqueue.Broker.Produce
import Oqueue.Library.FirstSeen

/-!
# What a produce request leaves to be flushed

A request's partitions in one line. Which of them reach their domain's bundle is a matter
of the request alone, and so are the bundles, one for each domain in the order it was first
reached, and the places of their regions in the request.
-/

namespace Oqueue.Broker.Produce

open Threaded FirstSeen

/-- One partition of a request, under the name its topic is handled by. -/
structure Entry where
  topic : Option String
  partition : Partition

def Entry.names (self : Entry) : Option String × Int := (self.topic, self.partition.index)

def Topic.entries (self : Topic) (version : Int) : List Entry :=
  self.partitions.map fun partition => ⟨self.resolved version, partition⟩

def Request.entries (self : Request) (version : Int) : List Entry :=
  self.topics.flatMap fun topic => topic.entries version

section
variable (mode : TopicMode) (authz : AuthzContext)

def takeEntry (pending : Pending) (entry : Entry) : Pending × PartitionSlot :=
  takePartition mode authz entry.topic pending entry.partition

/-- A region on its way to its domain's bundle, sealed where that is asked for. -/
structure Offered where
  names : String × Int
  domain : KeyDomain
  record : PendingRecord
  region : Option SealedRegion

/-- What an entry's own checks leave of it: the name it goes by, and its record. -/
def Entry.screen (self : Entry) : Except Int (String × PendingRecord) :=
  match admitted self.topic mode authz with
  | .error code => .error code
  | .ok topic => match screened topic self.partition with
    | .error code => .error code
    | .ok record => .ok (topic, record)

/-- The region an entry offers, when it passes its own checks, resolves and is sealed. -/
def Entry.offered (self : Entry) : Option Offered :=
  match self.screen mode authz with
  | .error _ => none
  | .ok (topic, record) => match self.partition.lookups.topicKeyDomain record.topic with
    | none => none
    | some domain => match sealedRegion self.partition.lookups domain record with
      | .error _ => none
      | .ok region => some ⟨(topic, self.partition.index), domain, record, region⟩

def Offered.fits (self : Offered) : Bool := (pushRegion {} self.record self.region).isOk

/-- The partitions named so far, and the regions offered. -/
structure Pass where
  seen : List (String × Int) := []
  offers : List Offered := []

def Pass.take (pass : Pass) (entry : Entry) : Pass :=
  match entry.screen mode authz with
  | .error _ => pass
  | .ok (topic, _) =>
    if (topic, entry.partition.index) ∈ pass.seen then pass
    else ⟨(topic, entry.partition.index) :: pass.seen,
      pass.offers ++ (entry.offered mode authz).toList⟩

def passOf (entries : List Entry) : Pass := entries.foldl (Pass.take mode authz) {}

end

def built (offers : List Offered) : BundleBuilder :=
  offers.foldl (fun bundle offer => match pushRegion bundle offer.record offer.region with
    | .ok bundle => bundle
    | .error _ => bundle) {}

def inDomain (offers : List Offered) (domain : KeyDomain) : List Offered :=
  (offers.filter Offered.fits).filter fun offer => offer.domain = domain

/-- Where the regions of one domain stand among all that fit. -/
def placesOf (offers : List Offered) (domain : KeyDomain) : List Nat :=
  ((offers.filter Offered.fits).zipIdx.filter fun offer => offer.1.domain = domain).map Prod.snd

def Pass.pending (pass : Pass) : Pending where
  bundles := (keysOf Offered.domain pass.offers).map fun domain => built (inDomain pass.offers domain)
  byDomain := (keysOf Offered.domain pass.offers).zipIdx
  routes := (keysOf Offered.domain pass.offers).map (placesOf pass.offers)
  pushed := (pass.offers.filter Offered.fits).length
  seen := pass.seen

def spansOf (bundle : BundleBuilder) : List CommittedSpan :=
  committedSpans bundle.regions bundle.producers

/-- The share of an object a record's region is committed as. -/
def PendingRecord.span (self : PendingRecord) (bytes : ByteRange) : CommittedSpan :=
  ⟨self.topic, self.partition, self.pushed.count, bytes, self.pushed.producer⟩

/-- A region is refused or taken whatever the bundle holds, and is the last one when taken. -/
theorem pushRegion_cases (bundle : BundleBuilder) (record : PendingRecord)
    (region : Option SealedRegion) :
    (∃ error, pushRegion {} record region = .error error ∧
      pushRegion bundle record region = .error error) ∨
    ∃ one bytes bundle', pushRegion {} record region = .ok one ∧
      pushRegion bundle record region = .ok bundle' ∧
      (bundle.regions.length = bundle.producers.length →
        bundle'.regions.length = bundle'.producers.length ∧
          spansOf bundle' = spansOf bundle ++ [record.span bytes]) := by
  cases region with
  | none =>
    unfold pushRegion BundleBuilder.push
    dsimp only
    cases admissible record.topic record.pushed.count with
    | error error => exact .inl ⟨_, rfl, rfl⟩
    | ok _ =>
      simp only [Checked.bind_ok, ByteRange.new]
      by_cases none : record.records.length = 0
      · simp only [if_pos none]
        exact .inl ⟨_, rfl, rfl⟩
      · simp only [if_neg none]
        refine .inr ⟨_, .bounded bundle.payload.length record.records.length, _, rfl, rfl,
          fun lengths => ⟨by simp [lengths], ?_⟩⟩
        unfold spansOf committedSpans
        dsimp only
        rw [List.zipWith_append lengths]
        rfl
  | some region =>
    unfold pushRegion BundleBuilder.pushSealed
    dsimp only
    cases admissible record.topic record.pushed.count with
    | error error => exact .inl ⟨_, rfl, rfl⟩
    | ok _ =>
      simp only [Checked.bind_ok, ByteRange.new]
      by_cases plain : region.alg = .none
      · simp only [if_pos plain]
        exact .inl ⟨_, rfl, rfl⟩
      · by_cases none : region.bytes.length = 0
        · simp only [if_neg plain, if_pos none]
          exact .inl ⟨_, rfl, rfl⟩
        · simp only [if_neg plain, if_neg none]
          refine .inr ⟨_, .bounded bundle.payload.length region.bytes.length, _, rfl, rfl,
            fun lengths => ⟨by simp [lengths], ?_⟩⟩
          unfold spansOf committedSpans
          dsimp only
          rw [List.zipWith_append lengths]
          rfl

theorem built_snoc (offers : List Offered) (offer : Offered) : built (offers ++ [offer]) =
    match pushRegion (built offers) offer.record offer.region with
    | .ok bundle => bundle
    | .error _ => built offers := by
  unfold built
  rw [List.foldl_append]
  rfl

theorem inDomain_snoc (offers : List Offered) (offer : Offered) (domain : KeyDomain) :
    inDomain (offers ++ [offer]) domain = if offer.fits = true ∧ offer.domain = domain then
      inDomain offers domain ++ [offer] else inDomain offers domain := by
  unfold inDomain
  rw [filter_snoc]
  cases offer.fits with
  | false => simp
  | true =>
    rw [if_pos rfl, filter_snoc]
    simp

theorem placesOf_snoc (offers : List Offered) (offer : Offered) (domain : KeyDomain) :
    placesOf (offers ++ [offer]) domain = if offer.fits = true ∧ offer.domain = domain then
      placesOf offers domain ++ [(offers.filter Offered.fits).length] else placesOf offers domain := by
  unfold placesOf
  rw [filter_snoc]
  cases offer.fits with
  | false => simp
  | true =>
    rw [if_pos rfl, List.zipIdx_append, List.filter_append, List.map_append]
    by_cases same : offer.domain = domain
    · simp [same]
    · simp [same]

theorem inDomain_new {offers : List Offered} {domain : KeyDomain}
    (new : domain ∉ offers.map Offered.domain) : inDomain offers domain = [] := by
  unfold inDomain
  rw [List.filter_eq_nil_iff]
  intro offer among same
  exact new (List.mem_map.mpr ⟨offer, List.mem_of_mem_filter among, by simpa using same⟩)

theorem placesOf_new {offers : List Offered} {domain : KeyDomain}
    (new : domain ∉ offers.map Offered.domain) : placesOf offers domain = [] := by
  unfold placesOf
  rw [List.map_eq_nil_iff, List.filter_eq_nil_iff]
  intro offer among same
  have inside := List.mem_of_mem_filter (List.fst_mem_of_mem_zipIdx among)
  exact new (List.mem_map.mpr ⟨offer.1, inside, by simpa using same⟩)

namespace Pass

/-- The bundles after a pass, once the bundle of one more domain is open. -/
def opened (pass : Pass) (domains : List KeyDomain) : Pending where
  bundles := domains.map fun domain => built (inDomain pass.offers domain)
  byDomain := domains.zipIdx
  routes := domains.map (placesOf pass.offers)
  pushed := (pass.offers.filter Offered.fits).length
  seen := pass.seen

theorem bundleFor_pending (pass : Pass) (offer : Offered) :
    let domains := keysOf Offered.domain (pass.offers ++ [offer])
    pass.pending.bundleFor offer.domain = (pass.opened domains, domains.idxOf offer.domain) ∧
      offer.domain ∈ domains := by
  dsimp only
  unfold Pending.bundleFor
  have among := @mem_keysOf _ _ _ Offered.domain pass.offers offer.domain
  rw [keysOf_snoc]
  by_cases old : offer.domain ∈ pass.offers.map Offered.domain
  · have here := among.mpr old
    simp only [pending, lookup_zipIdx, if_pos here, if_pos old, Nat.zero_add]
    exact ⟨rfl, here⟩
  · have away := among.not.mpr old
    simp only [pending, lookup_zipIdx, if_neg away, if_neg old, List.length_map]
    have place : (keysOf Offered.domain pass.offers ++ [offer.domain]).idxOf offer.domain =
        (keysOf Offered.domain pass.offers).length := by
      rw [List.idxOf_append_of_notMem away, List.idxOf_cons_self, Nat.add_zero]
    refine ⟨?_, by simp⟩
    rw [place]
    unfold opened
    rw [List.map_append, List.map_append, List.zipIdx_append, List.map_singleton, List.map_singleton,
      inDomain_new old, placesOf_new old]
    simp [built]

theorem push_pending (pass : Pass) {offer : Offered} {lookups : Lookups}
    (hregion : sealedRegion lookups offer.domain offer.record = .ok offer.region) :
    pass.pending.push lookups offer.domain offer.record =
      (({ pass with offers := pass.offers ++ [offer] } : Pass).pending,
        match pushRegion {} offer.record offer.region with
        | .ok _ => .ok (pass.offers.filter Offered.fits).length
        | .error error => .error error) := by
  obtain ⟨hopened, among⟩ := pass.bundleFor_pending offer
  have nodup := @nodup_keysOf _ _ _ Offered.domain (pass.offers ++ [offer])
  unfold Pending.push
  rw [hregion]
  dsimp only
  rw [hopened]
  dsimp only [opened]
  rw [getD_map_idxOf among, getD_map_idxOf among]
  rcases pushRegion_cases (built (inDomain pass.offers offer.domain)) offer.record offer.region with
    ⟨error, alone, here⟩ | ⟨one, bytes, bundle, alone, here, -⟩
  · have unfit : offer.fits = false := by
      unfold Offered.fits
      rw [alone]
      rfl
    rw [here, alone]
    dsimp only
    congr 1
    have places : placesOf (pass.offers ++ [offer]) = placesOf pass.offers :=
      funext fun domain => by rw [placesOf_snoc, if_neg (by simp [unfit])]
    have regions : inDomain (pass.offers ++ [offer]) = inDomain pass.offers :=
      funext fun domain => by rw [inDomain_snoc, if_neg (by simp [unfit])]
    unfold pending
    rw [places, regions, filter_snoc, if_neg (by simp [unfit])]
  · have fits : offer.fits = true := by
      unfold Offered.fits
      rw [alone]
      rfl
    rw [here, alone]
    dsimp only
    congr 1
    unfold pending
    have bundles := @map_set_idxOf _ _ _ _ nodup _ among
      (fun domain => built (inDomain pass.offers domain))
      (fun domain => built (inDomain (pass.offers ++ [offer]) domain))
      fun other _ differs => by rw [inDomain_snoc, if_neg (by simp [Ne.symm differs])]
    have routes := @map_set_idxOf _ _ _ _ nodup _ among (placesOf pass.offers)
      (placesOf (pass.offers ++ [offer]))
      fun other _ differs => by rw [placesOf_snoc, if_neg (by simp [Ne.symm differs])]
    rw [placesOf_snoc, if_pos ⟨fits, rfl⟩] at routes
    rw [inDomain_snoc, if_pos ⟨fits, rfl⟩, built_snoc, here] at bundles
    rw [bundles, routes, filter_snoc, if_pos fits, List.length_append]
    rfl

end Pass

section
variable {mode : TopicMode} {authz : AuthzContext}

/-- The slot an entry gets, given whether its partition was named before and how many
regions were pushed. -/
def Entry.slot (mode : TopicMode) (authz : AuthzContext) (self : Entry) (repeated : Bool)
    (nth : Nat) : Slot :=
  match self.screen mode authz with
  | .error code => .refused code
  | .ok (_, record) =>
    if repeated then .refused ErrorCode.invalidRecord
    else match self.partition.lookups.topicKeyDomain record.topic with
      | none => .refused ErrorCode.unknownTopicOrPartition
      | some domain => match sealedRegion self.partition.lookups domain record with
        | .error .invalidRecord => .refused ErrorCode.invalidRecord
        | .error .encryptionUnavailable => .refused ErrorCode.invalidRequest
        | .ok region => match pushRegion {} record region with
          | .ok _ => .pushed nth
          | .error .invalidRecord => .refused ErrorCode.invalidRecord
          | .error .encryptionUnavailable => .refused ErrorCode.invalidRequest

/-- Whether an entry names a partition that an earlier one was let through with. -/
def Pass.repeats (pass : Pass) (entry : Entry) : Bool :=
  pass.seen.any fun names => decide ((some names.1, names.2) = entry.names)

theorem admitted_eq_ok {resolved : Option String} {topic : String}
    (h : admitted resolved mode authz = .ok topic) : resolved = some topic := by
  unfold admitted at h
  split at h
  · cases h
  · split at h
    · cases h
    · split at h
      · cases h
        rfl
      · cases h

theorem screen_eq_ok {entry : Entry} {topic : String} {record : PendingRecord}
    (h : entry.screen mode authz = .ok (topic, record)) :
    admitted entry.topic mode authz = .ok topic ∧ screened topic entry.partition = .ok record ∧
      entry.topic = some topic := by
  unfold Entry.screen at h
  split at h
  · cases h
  · rename_i named hadmitted
    split at h
    · cases h
    · rename_i hscreened
      cases h
      exact ⟨hadmitted, hscreened, admitted_eq_ok hadmitted⟩

theorem screen_eq_error {entry : Entry} {code : Int}
    (h : entry.screen mode authz = .error code) : admitted entry.topic mode authz = .error code ∨
      ∃ topic, admitted entry.topic mode authz = .ok topic ∧
        screened topic entry.partition = .error code := by
  unfold Entry.screen at h
  cases hadmitted : admitted entry.topic mode authz with
  | error refused =>
    rw [hadmitted] at h
    cases h
    exact Or.inl rfl
  | ok topic =>
    rw [hadmitted] at h
    dsimp only at h
    cases hscreened : screened topic entry.partition with
    | error refused =>
      rw [hscreened] at h
      cases h
      exact Or.inr ⟨topic, rfl, hscreened⟩
    | ok record =>
      rw [hscreened] at h
      cases h

theorem Pass.repeats_iff {pass : Pass} {entry : Entry} {topic : String}
    (h : entry.topic = some topic) :
    pass.repeats entry = decide ((topic, entry.partition.index) ∈ pass.seen) := by
  unfold Pass.repeats Entry.names
  rw [h, Bool.eq_iff_iff]
  simp

/-- What the handler does with an entry is what the entry and the pass say. -/
theorem takeEntry_pending (pass : Pass) (entry : Entry) :
    takeEntry mode authz pass.pending entry = ((pass.take mode authz entry).pending,
      ⟨entry.partition.index, entry.slot mode authz (pass.repeats entry)
        (pass.offers.filter Offered.fits).length⟩) := by
  unfold takeEntry takePartition Pass.take Entry.slot
  cases hscreen : entry.screen mode authz with
  | error code =>
    rcases screen_eq_error hscreen with hadmitted | ⟨topic, hadmitted, hscreened⟩
    · rw [hadmitted]
    · rw [hadmitted]
      dsimp only
      unfold onePartition
      rw [hscreened]
  | ok found =>
    obtain ⟨topic, record⟩ := found
    obtain ⟨hadmitted, hscreened, hname⟩ := screen_eq_ok hscreen
    rw [hadmitted, Pass.repeats_iff hname]
    dsimp only
    unfold onePartition
    rw [hscreened]
    have same : pass.pending.seen = pass.seen := rfl
    dsimp only
    rw [same]
    by_cases named : (topic, entry.partition.index) ∈ pass.seen
    · simp only [named, decide_true, if_true]
    · simp only [named, decide_false, if_false, Bool.false_eq_true]
      unfold Entry.offered
      rw [hscreen]
      dsimp only
      cases entry.partition.lookups.topicKeyDomain record.topic with
      | none =>
        simp only [Option.toList_none, List.append_nil]
        rfl
      | some domain =>
        dsimp only
        have named' : ({ pass.pending with
            seen := (topic, entry.partition.index) :: pass.seen } : Pending) =
          ({ pass with seen := (topic, entry.partition.index) :: pass.seen } : Pass).pending := rfl
        rw [named']
        unfold appendPartition
        cases hregion : sealedRegion entry.partition.lookups domain record with
        | error error =>
          unfold Pending.push
          rw [hregion]
          simp only [Option.toList_none, List.append_nil]
          cases error <;> rfl
        | ok region =>
          rw [@Pass.push_pending _ ⟨(topic, entry.partition.index), domain, record, region⟩ _ hregion]
          dsimp only
          rcases pushRegion {} record region with error | one
          · cases error <;> rfl
          · rfl

def slotsFrom (mode : TopicMode) (authz : AuthzContext) : Pass → List Entry → List PartitionSlot
  | _, [] => []
  | pass, entry :: rest =>
    ⟨entry.partition.index, entry.slot mode authz (pass.repeats entry)
      (pass.offers.filter Offered.fits).length⟩ :: slotsFrom mode authz (pass.take mode authz entry) rest

theorem threaded_takeEntry (pass : Pass) (entries : List Entry) :
    threaded (takeEntry mode authz) pass.pending entries =
      ((entries.foldl (Pass.take mode authz) pass).pending, slotsFrom mode authz pass entries) := by
  induction entries generalizing pass with
  | nil => rfl
  | cons entry rest ih =>
    rw [threaded, takeEntry_pending]
    dsimp only
    rw [ih]
    rfl

/-- The slots of a whole request, topic after topic, are those of its entries. -/
theorem threaded_oneTopic (request : Request) :
    let whole := threaded (oneTopic mode authz) {} request.topics
    (whole.1, whole.2.flatMap TopicOutcome.partitions) =
      ((passOf mode authz (request.entries mode.version)).pending,
        slotsFrom mode authz {} (request.entries mode.version)) := by
  have step (pending : Pending) (topic : Topic) : oneTopic mode authz pending topic =
      ((threaded (takeEntry mode authz) pending (topic.entries mode.version)).1,
        (⟨if 13 ≤ mode.version then none else topic.name, topic.topicId,
          (threaded (takeEntry mode authz) pending (topic.entries mode.version)).2⟩ :
            TopicOutcome)) := by
    unfold oneTopic Topic.entries
    rw [threaded_map]
    rfl
  have groups := @threaded_groups _ _ _ _ _ (takeEntry mode authz)
    (fun topic : Topic => topic.entries mode.version)
    (fun topic slots => (⟨if 13 ≤ mode.version then none else topic.name, topic.topicId, slots⟩ :
      TopicOutcome)) TopicOutcome.partitions (fun _ _ => rfl) {} request.topics
  have same : oneTopic mode authz = fun pending topic =>
      ((threaded (takeEntry mode authz) pending (topic.entries mode.version)).1,
        (⟨if 13 ≤ mode.version then none else topic.name, topic.topicId,
          (threaded (takeEntry mode authz) pending (topic.entries mode.version)).2⟩ :
            TopicOutcome)) :=
    funext fun pending => funext (step pending)
  rw [same]
  exact groups.trans (threaded_takeEntry {} (request.entries mode.version))

end

end Oqueue.Broker.Produce
