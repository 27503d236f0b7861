import Oqueue.Broker.CatalogFormat
import Oqueue.Library.Hex
import Oqueue.Library.Listing

/-!
# Listing the topic catalog

One topic is an object under its name's key, one under its id's, and one under
its creator's. A tombstone under its name hides it for good. A page walks the
keys of one family and keeps the names that a lookup still finds.
-/

namespace Oqueue.Broker

open Segment Bytes Checked Hex

/-- What the shared store holds: objects under their keys' bytes, in byte order. -/
structure Objects where
  entries : List (List UInt8 × List UInt8)
  sorted : entries.Pairwise fun a b => a.1 < b.1

namespace Objects

def get (objects : Objects) (key : List UInt8) : Option (List UInt8) := objects.entries.lookup key

def under (objects : Objects) (stem : List UInt8) : List (List UInt8) :=
  (objects.entries.map Prod.fst).filter stem.isPrefixOf

def list (objects : Objects) (stem : List UInt8) (cursor : Option (List UInt8)) (limit : Nat) :
    List (List UInt8) :=
  Listing.list (objects.under stem) cursor limit

end Objects

structure ObjectStoreTopicCatalog where
  objects : Objects
  stem : List UInt8

namespace ObjectStoreTopicCatalog

def topics (catalog : ObjectStoreTopicCatalog) : List UInt8 := catalog.stem ++ utf8 "/topic/"

def tombstones (catalog : ObjectStoreTopicCatalog) : List UInt8 := catalog.stem ++ utf8 "/tombstone/"

def topicKey (catalog : ObjectStoreTopicCatalog) (name : TopicId) : List UInt8 :=
  catalog.topics ++ hex (utf8 name.name)

def tombstoneKey (catalog : ObjectStoreTopicCatalog) (name : TopicId) : List UInt8 :=
  catalog.tombstones ++ hex (utf8 name.name)

def idKey (catalog : ObjectStoreTopicCatalog) (id : BitVec 128) : List UInt8 :=
  catalog.stem ++ utf8 "/id/" ++ hex (toBeBytes 16 id.toNat)

def ownerPrefix (catalog : ObjectStoreTopicCatalog) (creator : Principal) : List UInt8 :=
  catalog.stem ++ utf8 "/owner/" ++ hex (utf8 creator) ++ utf8 "/"

def ownerKey (catalog : ObjectStoreTopicCatalog) (creator : Principal) (name : TopicId) :
    List UInt8 :=
  catalog.ownerPrefix creator ++ hex (utf8 name.name)

def read (catalog : ObjectStoreTopicCatalog) (key : List UInt8) : Option (List UInt8) :=
  catalog.objects.get key

def tombstoneEntry (catalog : ObjectStoreTopicCatalog) (name : TopicId) :
    Except Error (Option CatalogEntry) := do
  match catalog.read (catalog.tombstoneKey name) with
  | none => return none
  | some bytes =>
    let entry ← StoredCatalog.decode bytes
    if entry.name ≠ name then throw (.malformedMetadataSegment 0) else return some entry

def tombstoneId (catalog : ObjectStoreTopicCatalog) (name : TopicId) :
    Except Error (Option (BitVec 128)) := do
  return (← catalog.tombstoneEntry name).map CatalogEntry.id

def findEntry (catalog : ObjectStoreTopicCatalog) (name : TopicId) :
    Except Error (Option CatalogEntry) := do
  match catalog.read (catalog.topicKey name) with
  | none => return none
  | some bytes =>
    let entry ← StoredCatalog.decode bytes
    if entry.name ≠ name then throw (.malformedMetadataSegment 5) else return some entry

def find (catalog : ObjectStoreTopicCatalog) (name : TopicId) :
    Except Error (Option CatalogEntry) := do
  if (← catalog.tombstoneId name).isSome then return none
  else match ← catalog.findEntry name with
    | none => return none
    | some entry => match catalog.read (catalog.idKey entry.id) with
      | none => return none
      | some bytes =>
        if bytes ≠ utf8 name.name then throw (.malformedMetadataSegment 0)
        else if (← catalog.tombstoneId name).isSome then return none
        else return some entry

def stripPrefix (stem key : List UInt8) : Option (List UInt8) :=
  if stem.isPrefixOf key then some (key.drop stem.length) else none

/-- The name that a key's hexadecimal part spells. -/
def nameOf (raw : List UInt8) : Option TopicId := do
  let bytes ← unhex raw
  let text ← String.fromUTF8? ⟨bytes.toArray⟩
  (TopicId.new text).toOption

/-- A topic's key, and whether a lookup still finds the topic. -/
def seeTopic (catalog : ObjectStoreTopicCatalog) (key : List UInt8) :
    Except Error (Option TopicId) := do
  match (stripPrefix catalog.topics key).bind nameOf with
  | none => throw (.malformedMetadataSegment 0)
  | some name => return (← catalog.find name).map fun _ => name

/-- An owner's key, and whether a lookup still finds the topic with that creator. -/
def seeOwned (catalog : ObjectStoreTopicCatalog) (creator : Principal) (key : List UInt8) :
    Except Error (Option TopicId) := do
  match stripPrefix (catalog.ownerPrefix creator) key with
  | none => throw (.malformedMetadataSegment 0)
  | some raw => match nameOf raw with
    | none => throw (.malformedMetadataSegment (catalog.ownerPrefix creator).length)
    | some name =>
      let found ← catalog.find name
      return if found.any fun entry => decide (entry.creator = some creator) then some name else none

/-- The names after one, at most so many. A short page is the last. -/
def page (catalog : ObjectStoreTopicCatalog) (fuel : Nat) (after : Option TopicId) (limit : Nat) :
    Option (Except Error (List TopicId)) :=
  Listing.walk (catalog.objects.list catalog.topics) catalog.seeTopic true limit fuel
    (after.map catalog.topicKey) []

/-- The names of one creator's topics after one, at most so many. -/
def ownedPage (catalog : ObjectStoreTopicCatalog) (creator : Principal) (fuel : Nat)
    (after : Option TopicId) (limit : Nat) : Option (Except Error (List TopicId)) :=
  Listing.walk (catalog.objects.list (catalog.ownerPrefix creator)) (catalog.seeOwned creator) false
    limit fuel (after.map (catalog.ownerKey creator)) []

/-- What stays true of a catalog's objects whatever its requests get to: every key and
body is one they write, ids differ, and a creator's key is written before its topic. -/
structure Catalogued (catalog : ObjectStoreTopicCatalog) : Prop where
  topics : ∀ raw body, catalog.read (catalog.topics ++ raw) = some body →
    ∃ entry, raw = hex (utf8 entry.name.name) ∧ StoredCatalog.decode body = .ok entry
  tombstones : ∀ name body, catalog.read (catalog.tombstoneKey name) = some body →
    ∃ entry, StoredCatalog.decode body = .ok entry ∧ entry.name = name
  ids : ∀ name body, (catalog.read (catalog.topicKey name)).isSome →
    catalog.read (catalog.idKey (topicUuid name)) = some body → body = utf8 name.name
  owners : ∀ creator raw, (catalog.read (catalog.ownerPrefix creator ++ raw)).isSome →
    ∃ name : TopicId, name.Typed ∧ raw = hex (utf8 name.name)
  owned : ∀ name body entry creator, catalog.read (catalog.tombstoneKey name) = none →
    catalog.read (catalog.topicKey name) = some body → StoredCatalog.decode body = .ok entry →
    entry.creator = some creator → (catalog.read (catalog.ownerKey creator name)).isSome

/-- A topic that was neither half created nor deleted. -/
structure Visible (catalog : ObjectStoreTopicCatalog) (name : TopicId) (entry : CatalogEntry) :
    Prop where
  alive : catalog.read (catalog.tombstoneKey name) = none
  created : ∃ body, catalog.read (catalog.topicKey name) = some body ∧
    StoredCatalog.decode body = .ok entry
  indexed : (catalog.read (catalog.idKey (topicUuid name))).isSome

end ObjectStoreTopicCatalog

def InOrder (names : List TopicId) : Prop := names.Pairwise fun a b => utf8 a.name < utf8 b.name

def Beyond (after : Option TopicId) (name : TopicId) : Prop :=
  ∀ last, after = some last → utf8 last.name < utf8 name.name

namespace Objects

variable {objects : Objects} {key body stem : List UInt8}

theorem get_eq_some : objects.get key = some body ↔ (key, body) ∈ objects.entries := by
  unfold get
  rw [List.lookup_eq_some_iff]
  constructor
  · rintro ⟨before, later, split, -⟩
    rw [split]
    exact List.mem_append_right _ (List.mem_cons_self ..)
  · intro held
    obtain ⟨before, later, split⟩ := List.append_of_mem held
    refine ⟨before, later, split, ?_⟩
    intro entry hentry
    have sorted := objects.sorted
    rw [split] at sorted
    have below := (List.pairwise_append.mp sorted).2.2 entry hentry _ (List.mem_cons_self ..)
    rw [bne_iff_ne]
    intro same
    exact List.lt_irrefl _ (same ▸ below)

theorem mem_under : key ∈ objects.under stem ↔ ∃ raw, key = stem ++ raw ∧ (objects.get key).isSome := by
  unfold under
  rw [List.mem_filter, List.isPrefixOf_iff_prefix, List.mem_map]
  constructor
  · rintro ⟨⟨entry, held, rfl⟩, raw, same⟩
    exact ⟨raw, same.symm, Option.isSome_iff_exists.mpr ⟨entry.2, get_eq_some.mpr held⟩⟩
  · rintro ⟨raw, rfl, held⟩
    obtain ⟨body, held⟩ := Option.isSome_iff_exists.mp held
    exact ⟨⟨_, get_eq_some.mp held, rfl⟩, raw, rfl⟩

theorem under_sorted (objects : Objects) (stem : List UInt8) :
    (objects.under stem).Pairwise fun a b => a < b :=
  (List.pairwise_map.mpr objects.sorted).filter _

theorem under_length_le (objects : Objects) (stem : List UInt8) :
    (objects.under stem).length ≤ objects.entries.length := by
  unfold under
  exact (List.length_filter_le _ _).trans (List.length_map _).le

end Objects

namespace ObjectStoreTopicCatalog

theorem stripPrefix_append (stem raw : List UInt8) : stripPrefix stem (stem ++ raw) = some raw := by
  unfold stripPrefix
  rw [if_pos (List.isPrefixOf_iff_prefix.mpr (List.prefix_append stem raw)), List.drop_left]

theorem nameOf_hex {name : TopicId} (typed : name.Typed) :
    nameOf (hex (utf8 name.name)) = some name := by
  have made := (StoredCatalog.makes_topic name.name name).mpr ⟨rfl, typed⟩
  have text := fromUTF8?_eq_some.mpr (rfl : utf8 name.name = utf8 name.name)
  simp only [nameOf, unhex_hex, Option.bind_eq_bind, Option.bind_some]
  rw [text, Option.bind_some, made]
  rfl

theorem append_lt_append_iff (stem : List UInt8) {a b : List UInt8} :
    stem ++ a < stem ++ b ↔ a < b := by
  induction stem with
  | nil => rfl
  | cons byte stem ih =>
    rw [List.cons_append, List.cons_append, List.cons_lt_cons_iff, ih]
    constructor
    · rintro (less | ⟨-, less⟩)
      · exact absurd less (UInt8.lt_irrefl _)
      · exact less
    · exact fun less => .inr ⟨rfl, less⟩

theorem key_lt_iff (stem : List UInt8) {a b : TopicId} :
    stem ++ hex (utf8 a.name) < stem ++ hex (utf8 b.name) ↔ utf8 a.name < utf8 b.name := by
  rw [append_lt_append_iff, hex_lt_iff]

theorem key_inj {stem : List UInt8} {a b : TopicId}
    (same : stem ++ hex (utf8 a.name) = stem ++ hex (utf8 b.name)) : a = b := by
  obtain ⟨a⟩ := a
  obtain ⟨b⟩ := b
  rw [TopicId.mk.injEq]
  exact utf8_inj (hex_injective (List.append_cancel_left same))

variable {catalog : ObjectStoreTopicCatalog}

theorem Catalogued.tombstoneId_eq (kept : catalog.Catalogued) (name : TopicId) :
    catalog.tombstoneId name =
      .ok ((catalog.read (catalog.tombstoneKey name)).map fun _ => topicUuid name) := by
  unfold tombstoneId tombstoneEntry
  cases held : catalog.read (catalog.tombstoneKey name) with
  | none => rfl
  | some body =>
    obtain ⟨entry, decoded, rfl⟩ := kept.tombstones name body held
    simp only [decoded, bind_ok]
    rw [if_neg (not_not_intro rfl)]
    rfl

/-- What a lookup finds: the visible entry, and no refusal. -/
theorem Catalogued.find_eq (kept : catalog.Catalogued) (name : TopicId) :
    ∃ found, catalog.find name = .ok found ∧
      ∀ entry, found = some entry ↔ catalog.Visible name entry := by
  unfold find
  rw [kept.tombstoneId_eq, bind_ok, Option.isSome_map]
  cases buried : catalog.read (catalog.tombstoneKey name) with
  | some body =>
    refine ⟨none, rfl, fun entry => iff_of_false nofun fun visible => ?_⟩
    rw [visible.alive] at buried
    cases buried
  | none =>
    unfold findEntry
    cases held : catalog.read (catalog.topicKey name) with
    | none =>
      refine ⟨none, rfl, fun entry => iff_of_false nofun fun visible => ?_⟩
      obtain ⟨body, held', -⟩ := visible.created
      rw [held] at held'
      cases held'
    | some body =>
      obtain ⟨entry, same, decoded⟩ := kept.topics _ _ held
      obtain rfl : entry.name = name := (key_inj (congrArg (catalog.topics ++ ·) same)).symm
      have only (other : CatalogEntry) (visible : catalog.Visible entry.name other) :
          entry = other := by
        obtain ⟨body', held', decoded'⟩ := visible.created
        rw [held] at held'
        cases held'
        rw [decoded] at decoded'
        cases decoded'
        rfl
      simp only [decoded, bind_ok, Option.isSome_none, Bool.false_eq_true, if_false, ne_eq,
        not_true_eq_false]
      rw [pure_bind]
      dsimp only
      cases indexed : catalog.read (catalog.idKey entry.id) with
      | none =>
        refine ⟨none, rfl, fun other => iff_of_false nofun fun visible => ?_⟩
        have shown := visible.indexed
        rw [show catalog.read (catalog.idKey (topicUuid entry.name)) = none from indexed] at shown
        cases shown
      | some raw =>
        have names := kept.ids entry.name raw (Option.isSome_iff_exists.mpr ⟨body, held⟩) indexed
        refine ⟨some entry, ?_, fun other => ⟨?_, fun visible => congrArg some (only other visible)⟩⟩
        · simp only [names, not_true_eq_false, if_false]
          rfl
        · rintro ⟨⟩
          exact ⟨buried, ⟨body, held, decoded⟩, Option.isSome_iff_exists.mpr ⟨raw, indexed⟩⟩

/-- A walk over keys that spell names finds the first of those it can see. -/
theorem walk_names {stem : List UInt8} {see : List UInt8 → Except Error (Option TopicId)}
    {seen : TopicId → Bool} (spells : ∀ raw, (catalog.read (stem ++ raw)).isSome →
      ∃ name : TopicId, raw = hex (utf8 name.name) ∧
        see (stem ++ raw) = .ok (if seen name then some name else none))
    (stopsShort : Bool) (after : Option TopicId) (limit : Nat) {fuel : Nat}
    (enough : catalog.objects.entries.length < fuel) :
    ∃ all, InOrder all ∧ (∀ name, name ∈ all ↔
      ((catalog.read (stem ++ hex (utf8 name.name))).isSome ∧ seen name = true) ∧ Beyond after name) ∧
      Listing.walk (catalog.objects.list stem) see stopsShort limit fuel
        (after.map fun name => stem ++ hex (utf8 name.name)) [] = some (.ok (all.take limit)) := by
  let shown (key : List UInt8) : Option TopicId := (see key).toOption.join
  let cursor := after.map fun name => stem ++ hex (utf8 name.name)
  let keys := Listing.after (catalog.objects.under stem) cursor
  have spelt : ∀ key ∈ keys, ∃ name : TopicId, key = stem ++ hex (utf8 name.name) ∧
      see key = .ok (if seen name then some name else none) := by
    intro key hkey
    obtain ⟨raw, rfl, held⟩ := Objects.mem_under.mp (Listing.mem_after.mp hkey).1
    obtain ⟨name, rfl, sees⟩ := spells raw held
    exact ⟨name, rfl, sees⟩
  have shows : ∀ key ∈ keys, ∀ name, shown key = some name ↔
      key = stem ++ hex (utf8 name.name) ∧ seen name = true := by
    intro key hkey name
    obtain ⟨other, rfl, sees⟩ := spelt key hkey
    have value : shown (stem ++ hex (utf8 other.name)) = if seen other then some other else none := by
      change (see _).toOption.join = _
      rw [sees]
      rfl
    rw [value]
    constructor
    · intro h
      split at h
      · cases h
        exact ⟨rfl, ‹_›⟩
      · cases h
    · rintro ⟨same, visible⟩
      obtain rfl := key_inj same
      exact if_pos visible
  refine ⟨keys.filterMap shown, ?_, ?_, ?_⟩
  · refine List.pairwise_filterMap.mpr (((catalog.objects.under_sorted stem).filter _).imp_of_mem ?_)
    intro key key' hkey hkey' less name hname name' hname'
    rw [((shows key hkey name).mp hname).1, ((shows key' hkey' name').mp hname').1] at less
    exact (key_lt_iff stem).mp less
  · intro name
    have beyond : Beyond after name ↔
        ∀ last, cursor = some last → last < stem ++ hex (utf8 name.name) := by
      cases after with
      | none => exact ⟨fun _ _ h => (nomatch h), fun _ _ h => (nomatch h)⟩
      | some last =>
        constructor
        · intro beyond before h
          have same : stem ++ hex (utf8 last.name) = before := Option.some.inj h
          rw [← same]
          exact (key_lt_iff stem).mpr (beyond last rfl)
        · rintro beyond _ ⟨⟩
          exact (key_lt_iff stem).mp (beyond _ rfl)
    rw [List.mem_filterMap, beyond]
    constructor
    · rintro ⟨key, hkey, hname⟩
      obtain ⟨rfl, visible⟩ := (shows key hkey name).mp hname
      obtain ⟨listed, later⟩ := Listing.mem_after.mp hkey
      obtain ⟨-, -, held⟩ := Objects.mem_under.mp listed
      exact ⟨⟨held, visible⟩, later⟩
    · rintro ⟨⟨held, visible⟩, later⟩
      have hkey : stem ++ hex (utf8 name.name) ∈ keys :=
        Listing.mem_after.mpr ⟨Objects.mem_under.mpr ⟨_, rfl, held⟩, later⟩
      exact ⟨_, hkey, (shows _ hkey name).mpr ⟨rfl, visible⟩⟩
  · have sees : ∀ key ∈ keys, see key = .ok (shown key) := by
      intro key hkey
      obtain ⟨name, -, sees⟩ := spelt key hkey
      change see key = .ok (see key).toOption.join
      rw [sees]
      rfl
    have few : keys.length < fuel :=
      ((List.length_filter_le _ _).trans (catalog.objects.under_length_le stem)).trans_lt enough
    rcases Nat.eq_zero_or_pos limit with rfl | wanted
    · obtain ⟨fuel, rfl⟩ := Nat.exists_eq_add_of_lt (Nat.zero_lt_of_lt enough)
      rfl
    · have walked : Listing.walk (catalog.objects.list stem) see stopsShort limit fuel cursor [] =
          some (Listing.collect see limit keys []) :=
        Listing.walk_eq (catalog.objects.under_sorted stem) few wanted
      rw [Listing.collect_eq_ok sees wanted] at walked
      exact walked

theorem Catalogued.page_exact (kept : catalog.Catalogued) (after : Option TopicId) (limit : Nat)
    {fuel : Nat} (enough : catalog.objects.entries.length < fuel) :
    ∃ all, InOrder all ∧
      (∀ name, name ∈ all ↔ (∃ entry, catalog.Visible name entry) ∧ Beyond after name) ∧
      catalog.page fuel after limit = some (.ok (all.take limit)) := by
  classical
  have spells (raw : List UInt8) (held : (catalog.read (catalog.topics ++ raw)).isSome) :
      ∃ name : TopicId, raw = hex (utf8 name.name) ∧ catalog.seeTopic (catalog.topics ++ raw) =
        .ok (if decide (∃ entry, catalog.Visible name entry) then some name else none) := by
    obtain ⟨body, held⟩ := Option.isSome_iff_exists.mp held
    obtain ⟨entry, rfl, decoded⟩ := kept.topics raw body held
    refine ⟨entry.name, rfl, ?_⟩
    obtain ⟨found, finds, visible⟩ := kept.find_eq entry.name
    have typed := (StoredCatalog.decode_eq_ok.mp decoded).1.name
    simp only [seeTopic, stripPrefix_append, Option.bind_some, nameOf_hex typed, finds, bind_ok]
    cases found with
    | none =>
      have hidden : ¬ ∃ other, catalog.Visible entry.name other := by
        rintro ⟨other, shown⟩
        exact nomatch (visible other).mpr shown
      rw [if_neg (by simpa using hidden)]
      rfl
    | some other =>
      have shown : ∃ other, catalog.Visible entry.name other := ⟨other, (visible other).mp rfl⟩
      rw [if_pos (decide_eq_true shown)]
      rfl
  obtain ⟨all, ordered, members, walked⟩ := walk_names spells true after limit enough
  refine ⟨all, ordered, fun name => ?_, walked⟩
  rw [members, decide_eq_true_eq]
  refine and_congr_left fun _ => ⟨And.right, fun shown => ⟨?_, shown⟩⟩
  obtain ⟨_, visible⟩ := shown
  obtain ⟨body, held, -⟩ := visible.created
  exact Option.isSome_iff_exists.mpr ⟨body, held⟩

theorem Catalogued.ownedPage_exact (kept : catalog.Catalogued) (creator : Principal)
    (after : Option TopicId) (limit : Nat) {fuel : Nat}
    (enough : catalog.objects.entries.length < fuel) :
    ∃ all, InOrder all ∧ (∀ name, name ∈ all ↔
      (∃ entry, catalog.Visible name entry ∧ entry.creator = some creator) ∧ Beyond after name) ∧
      catalog.ownedPage creator fuel after limit = some (.ok (all.take limit)) := by
  classical
  have spells (raw : List UInt8) (held : (catalog.read (catalog.ownerPrefix creator ++ raw)).isSome) :
      ∃ name : TopicId, raw = hex (utf8 name.name) ∧
        catalog.seeOwned creator (catalog.ownerPrefix creator ++ raw) =
          .ok (if decide (∃ entry, catalog.Visible name entry ∧ entry.creator = some creator)
            then some name else none) := by
    obtain ⟨name, typed, rfl⟩ := kept.owners creator raw held
    refine ⟨name, rfl, ?_⟩
    obtain ⟨found, finds, visible⟩ := kept.find_eq name
    simp only [seeOwned, stripPrefix_append, nameOf_hex typed, finds, bind_ok]
    refine congrArg (fun item => Except.ok item) (if_congr ?_ rfl rfl)
    rw [decide_eq_true_eq, Option.any_eq_true]
    simp only [visible, decide_eq_true_eq]
  obtain ⟨all, ordered, members, walked⟩ := walk_names spells false after limit enough
  refine ⟨all, ordered, fun name => ?_, walked⟩
  rw [members, decide_eq_true_eq]
  refine and_congr_left fun _ => ⟨And.right, fun shown => ⟨?_, shown⟩⟩
  obtain ⟨entry, visible, made⟩ := shown
  obtain ⟨body, held, decoded⟩ := visible.created
  exact kept.owned name body entry creator visible.alive held decoded made

end ObjectStoreTopicCatalog

/-- The bytes of an entry read back, and nothing else reads as an entry; hexadecimal reads back
and keeps the order of what it spells; and a page names the first of the visible names, whatever
the keys between them, after as many listings as there are keys. -/
theorem topic_catalog_exact :
    (∀ entry bytes, StoredCatalog.Typed entry → StoredCatalog.encode entry = .ok bytes →
      StoredCatalog.decode bytes = .ok entry) ∧
    (∀ bytes entry, StoredCatalog.decode bytes = .ok entry →
      StoredCatalog.encode entry = .ok bytes) ∧
    (∀ bytes, unhex (hex bytes) = some bytes) ∧ (∀ a b, hex a < hex b ↔ a < b) ∧
    ∀ catalog : ObjectStoreTopicCatalog, catalog.Catalogued →
      ∀ after limit fuel, catalog.objects.entries.length < fuel →
        (∃ all, InOrder all ∧
          (∀ name, name ∈ all ↔ (∃ entry, catalog.Visible name entry) ∧ Beyond after name) ∧
          catalog.page fuel after limit = some (.ok (all.take limit))) ∧
        ∀ creator, ∃ all, InOrder all ∧ (∀ name, name ∈ all ↔
          (∃ entry, catalog.Visible name entry ∧ entry.creator = some creator) ∧ Beyond after name) ∧
          catalog.ownedPage creator fuel after limit = some (.ok (all.take limit)) := by
  refine ⟨?_, ?_, unhex_hex, fun _ _ => hex_lt_iff, ?_⟩
  · intro entry bytes typed encoded
    obtain ⟨fits, rfl⟩ := StoredCatalog.encode_eq_ok.mp encoded
    exact StoredCatalog.decode_eq_ok.mpr ⟨typed, fits, rfl⟩
  · intro bytes entry decoded
    obtain ⟨-, fits, rfl⟩ := StoredCatalog.decode_eq_ok.mp decoded
    exact StoredCatalog.encode_eq_ok.mpr ⟨fits, rfl⟩
  · intro catalog kept after limit fuel enough
    exact ⟨kept.page_exact after limit enough,
      fun creator => kept.ownedPage_exact creator after limit enough⟩

def liveTopic : CatalogEntry where
  name := ⟨"a"⟩
  partitions := 1
  creator := some "u"

def deadTopic : CatalogEntry where
  name := ⟨"b"⟩
  partitions := 2

def halfTopic : CatalogEntry where
  name := ⟨"c"⟩
  partitions := 3
  creator := some "u"

/-- A topic that is there; one that a tombstone hides, its own object not yet deleted; and one
that was not created to its id's object. -/
def threeNames : ObjectStoreTopicCatalog where
  stem := utf8 "catalog/0"
  objects := {
    entries := [
      (utf8 "catalog/0/id/" ++ hex (toBeBytes 16 (topicUuid ⟨"a"⟩).toNat), utf8 "a"),
      (utf8 "catalog/0/owner/75/61", []),
      (utf8 "catalog/0/owner/75/63", []),
      (utf8 "catalog/0/tombstone/62", StoredCatalog.image deadTopic),
      (utf8 "catalog/0/topic/61", StoredCatalog.image liveTopic),
      (utf8 "catalog/0/topic/62", StoredCatalog.image deadTopic),
      (utf8 "catalog/0/topic/63", StoredCatalog.image halfTopic)]
    sorted := by decide +kernel }

def underThree (stem : List UInt8) : List (List UInt8 × List UInt8) :=
  threeNames.objects.entries.filterMap fun entry =>
    (ObjectStoreTopicCatalog.stripPrefix stem entry.1).map fun raw => (raw, entry.2)

theorem mem_underThree {stem raw body : List UInt8}
    (held : threeNames.read (stem ++ raw) = some body) : (raw, body) ∈ underThree stem := by
  refine List.mem_filterMap.mpr ⟨_, Objects.get_eq_some.mp held, ?_⟩
  rw [ObjectStoreTopicCatalog.stripPrefix_append]
  rfl

theorem topics_threeNames {raw body : List UInt8}
    (held : threeNames.read (threeNames.topics ++ raw) = some body) :
    ∃ entry ∈ [liveTopic, deadTopic, halfTopic],
      raw = hex (utf8 entry.name.name) ∧ body = StoredCatalog.image entry := by
  have all : underThree threeNames.topics = [liveTopic, deadTopic, halfTopic].map fun entry =>
      (hex (utf8 entry.name.name), StoredCatalog.image entry) := by decide +kernel
  obtain ⟨entry, among, same⟩ := List.mem_map.mp (all ▸ mem_underThree held)
  obtain ⟨rfl, rfl⟩ := Prod.mk.inj same
  exact ⟨entry, among, rfl, rfl⟩

theorem topic_threeNames {name : TopicId} {body : List UInt8}
    (held : threeNames.read (threeNames.topicKey name) = some body) :
    ∃ entry ∈ [liveTopic, deadTopic, halfTopic],
      entry.name = name ∧ body = StoredCatalog.image entry := by
  obtain ⟨entry, among, same, rfl⟩ := topics_threeNames held
  exact ⟨entry, among, (ObjectStoreTopicCatalog.key_inj
    (congrArg (threeNames.topics ++ ·) same)).symm, rfl⟩

theorem threeNames_decode : ∀ entry ∈ [liveTopic, deadTopic, halfTopic],
    StoredCatalog.decode (StoredCatalog.image entry) = .ok entry := by decide +kernel

theorem threeNames_catalogued : threeNames.Catalogued where
  topics := by
    intro raw body held
    obtain ⟨entry, among, rfl, rfl⟩ := topics_threeNames held
    exact ⟨entry, rfl, threeNames_decode entry among⟩
  tombstones := by
    intro name body held
    have only : underThree threeNames.tombstones =
        [(hex (utf8 "b"), StoredCatalog.image deadTopic)] := by decide +kernel
    obtain ⟨same, rfl⟩ := Prod.mk.inj (List.mem_singleton.mp (only ▸ mem_underThree held))
    obtain rfl : name = ⟨"b"⟩ :=
      ObjectStoreTopicCatalog.key_inj (congrArg (threeNames.tombstones ++ ·) same)
    exact ⟨deadTopic, by decide +kernel, rfl⟩
  ids := by
    intro name body held indexed
    obtain ⟨body', held⟩ := Option.isSome_iff_exists.mp held
    obtain ⟨entry, among, rfl, -⟩ := topic_threeNames held
    have known : ∀ entry ∈ [liveTopic, deadTopic, halfTopic], ∀ body ∈
        threeNames.read (threeNames.idKey (topicUuid entry.name)), body = utf8 entry.name.name := by
      decide +kernel
    exact known entry among body indexed
  owners := by
    intro creator raw held
    obtain ⟨body, held⟩ := Option.isSome_iff_exists.mp held
    unfold ObjectStoreTopicCatalog.ownerPrefix at held
    have slash : utf8 "/" = [47] := by decide +kernel
    rw [List.append_assoc, List.append_assoc, slash, List.singleton_append] at held
    have both : underThree (threeNames.stem ++ utf8 "/owner/") = [liveTopic, halfTopic].map
        fun entry => (hex (utf8 "u") ++ 47 :: hex (utf8 entry.name.name), []) := by decide +kernel
    obtain ⟨entry, among, same⟩ := List.mem_map.mp (both ▸ mem_underThree held)
    obtain ⟨-, rfl⟩ := hex_append_inj (by decide) (Prod.mk.inj same).1
    have typed : ∀ entry ∈ [liveTopic, halfTopic], entry.name.name.isEmpty = false := by decide
    exact ⟨entry.name, typed entry among, rfl⟩
  owned := by
    intro name body entry creator _ held decoded made
    obtain ⟨other, among, rfl, rfl⟩ := topic_threeNames held
    rw [threeNames_decode other among] at decoded
    cases decoded
    have known : ∀ entry ∈ [liveTopic, deadTopic, halfTopic], ∀ creator ∈ entry.creator,
        (threeNames.read (threeNames.ownerKey creator entry.name)).isSome := by decide +kernel
    exact known _ among creator made

/-- Its page is the one topic that is there. -/
theorem topic_catalog_exact_threeNames :
    threeNames.Catalogued ∧ (∃ all, InOrder all ∧ (∀ name, name ∈ all ↔
      (∃ entry, threeNames.Visible name entry) ∧ Beyond none name) ∧
      threeNames.page 8 none 10 = some (.ok (all.take 10))) ∧
      threeNames.page 8 none 10 = some (.ok [⟨"a"⟩]) :=
  ⟨threeNames_catalogued, (topic_catalog_exact.2.2.2.2 threeNames threeNames_catalogued none 10 8
    (by decide)).1, by decide +kernel⟩

end Oqueue.Broker
