import Oqueue.Broker.CatalogLinear

/-!
# The catalog that its calls leave

Whatever calls have run, and wherever the others have got to, the objects they left are a
catalog: what a page of it lists are the topics that were created and not deleted.
-/

namespace Oqueue.Broker

open Segment Bytes Hex Asks

namespace CatalogKey

inductive Kind where
  | topic | id | owner | tombstone | retention
  deriving DecidableEq, Repr

/-- How the keys of a kind begin, as far as tells the kinds apart. -/
def Kind.start : Kind → List UInt8
  | .topic => utf8 "/top"
  | .id => utf8 "/id/"
  | .owner => utf8 "/own"
  | .tombstone => utf8 "/tom"
  | .retention => utf8 "/con"

def kind : CatalogKey → Kind
  | .topic _ => .topic
  | .id _ => .id
  | .owner _ _ => .owner
  | .tombstone _ => .tombstone
  | .retention _ => .retention

theorem Kind.start_injective : Function.Injective Kind.start := by
  intro a b
  cases a <;> cases b <;> decide

variable {root raw : List UInt8}

theorem take_append (part rest : List UInt8) (long : 4 ≤ part.length) :
    ((root ++ part ++ rest).drop root.length).take 4 = part.take 4 := by
  rw [List.append_assoc, List.drop_left, List.take_append_of_le_length long]

theorem take_bytes (root : List UInt8) (key : CatalogKey) :
    ((key.bytes root).drop root.length).take 4 = key.kind.start := by
  cases key with
  | topic name => exact take_append (utf8 "/topic/") _ (by decide)
  | id uuid => exact take_append (utf8 "/id/") _ (by decide)
  | owner creator name =>
    rw [bytes, ownerPrefix, List.append_assoc, List.append_assoc]
    exact take_append (utf8 "/owner/") _ (by decide)
  | tombstone name => exact take_append (utf8 "/tombstone/") _ (by decide)
  | retention name => exact take_append (utf8 "/config/") _ (by decide)

theorem kind_eq {key : CatalogKey} {kind : Kind} (part : List UInt8)
    (same : key.bytes root = root ++ part ++ raw) (long : 4 ≤ part.length)
    (starts : part.take 4 = kind.start) : key.kind = kind := by
  apply Kind.start_injective
  rw [← take_bytes root key, same, take_append part raw long, starts]

theorem eq_topic {key : CatalogKey} (same : key.bytes root = topics root ++ raw) :
    ∃ name, key = .topic name ∧ raw = hex (utf8 name.name) := by
  have kind : key.kind = .topic := kind_eq (utf8 "/topic/") same (by decide) (by decide)
  cases key with
  | topic name => exact ⟨name, rfl, (List.append_cancel_left same).symm⟩
  | id | owner | tombstone | retention => cases kind

theorem eq_owner {key : CatalogKey} {creator : Principal}
    (same : key.bytes root = ownerPrefix root creator ++ raw) :
    ∃ name, key = .owner creator name ∧ raw = hex (utf8 name.name) := by
  have split : ownerPrefix root creator ++ raw =
      root ++ utf8 "/owner/" ++ (hex (utf8 creator) ++ utf8 "/" ++ raw) := by
    simp only [ownerPrefix, List.append_assoc]
  have kind : key.kind = .owner :=
    kind_eq (utf8 "/owner/") (same.trans split) (by decide) (by decide)
  cases key with
  | owner other name =>
    have slash : utf8 "/" = [47] := by decide
    simp only [bytes, ownerPrefix, List.append_assoc, List.append_cancel_left_eq, slash,
      List.singleton_append] at same
    -- hexadecimal has no slash
    obtain ⟨creators, names⟩ := hex_append_inj (by decide) same
    obtain rfl := utf8_inj creators
    exact ⟨name, rfl, names.symm⟩
  | topic | id | tombstone | retention => cases kind

theorem bytes_injective (root : List UInt8) : Function.Injective (bytes root) := by
  intro a b same
  have kinds : a.kind = b.kind := by
    apply Kind.start_injective
    rw [← take_bytes root a, ← take_bytes root b, same]
  cases b with
  | topic name =>
    obtain ⟨other, rfl, names⟩ := eq_topic same
    exact congrArg topic (ObjectStoreTopicCatalog.key_inj same)
  | owner creator name =>
    obtain ⟨other, rfl, names⟩ := eq_owner same
    exact congrArg (owner creator) (ObjectStoreTopicCatalog.key_inj same)
  | id uuid =>
    cases a with
    | id other =>
      have fits (uuid : BitVec 128) : uuid.toNat % 256 ^ 16 = uuid.toNat :=
        Nat.mod_eq_of_lt uuid.isLt
      have values := congrArg fromBeBytes (hex_injective (List.append_cancel_left same))
      rw [fromBeBytes_toBeBytes, fromBeBytes_toBeBytes, fits, fits] at values
      exact congrArg id (BitVec.eq_of_toNat_eq values)
    | topic | owner | tombstone | retention => cases kinds
  | tombstone name =>
    cases a with
    | tombstone other => exact congrArg tombstone (ObjectStoreTopicCatalog.key_inj same)
    | topic | id | owner | retention => cases kinds
  | retention name =>
    cases a with
    | retention other => exact congrArg retention (ObjectStoreTopicCatalog.key_inj same)
    | topic | id | owner | tombstone => cases kinds

end CatalogKey

namespace CatalogStore

variable {root : List UInt8} {s : CatalogStore}

def stored (root : List UInt8) (s : CatalogStore) : List (List UInt8 × List UInt8) :=
  (s.objects.entries.map fun object => (object.1.bytes root, object.2)).insertionSort
    fun a b => a.1 ≤ b.1

theorem stored_sorted (root : List UInt8) (s : CatalogStore) :
    (s.stored root).Pairwise fun a b => a.1 < b.1 := by
  have apart : (s.stored root).Pairwise fun a b => a.1 ≠ b.1 := by
    refine (List.perm_insertionSort _ _).symm.pairwise ?_ fun ne => ne.symm
    have keys := List.nodupKeys_iff_pairwise.mp s.objects.nodupKeys
    exact List.pairwise_map.mpr (keys.imp fun ne same => ne (CatalogKey.bytes_injective root same))
  have ordered : (s.stored root).Pairwise fun a b => a.1 ≤ b.1 := List.pairwise_insertionSort ..
  exact (ordered.and apart).imp fun both => (List.le_iff_lt_or_eq.mp both.1).resolve_right both.2

def asCatalog (root : List UInt8) (s : CatalogStore) : ObjectStoreTopicCatalog where
  objects := ⟨s.stored root, stored_sorted root s⟩
  stem := root

theorem mem_stored {raw body : List UInt8} :
    (raw, body) ∈ s.stored root ↔ ∃ key : CatalogKey, key.bytes root = raw ∧
      s.get key = some body := by
  unfold stored
  rw [List.mem_insertionSort, List.mem_map]
  constructor
  · rintro ⟨⟨key, body⟩, held, ⟨⟩⟩
    exact ⟨key, rfl, AList.mem_lookup_iff.mpr held⟩
  · rintro ⟨key, rfl, held⟩
    exact ⟨⟨key, body⟩, AList.mem_lookup_iff.mp held, rfl⟩

theorem read_eq_some {raw body : List UInt8} :
    (s.asCatalog root).read raw = some body ↔ ∃ key : CatalogKey, key.bytes root = raw ∧
      s.get key = some body :=
  Objects.get_eq_some.trans mem_stored

@[simp] theorem read_bytes (key : CatalogKey) :
    (s.asCatalog root).read (key.bytes root) = s.get key := by
  refine Option.ext fun body => ?_
  rw [read_eq_some]
  constructor
  · rintro ⟨other, same, held⟩
    exact CatalogKey.bytes_injective root same ▸ held
  · exact fun held => ⟨key, rfl, held⟩

@[simp] theorem read_topicKey (name : TopicId) :
    (s.asCatalog root).read ((s.asCatalog root).topicKey name) = s.get (.topic name) :=
  read_bytes (.topic name)

@[simp] theorem read_tombstoneKey (name : TopicId) :
    (s.asCatalog root).read ((s.asCatalog root).tombstoneKey name) = s.get (.tombstone name) :=
  read_bytes (.tombstone name)

@[simp] theorem read_idKey (uuid : BitVec 128) :
    (s.asCatalog root).read ((s.asCatalog root).idKey uuid) = s.get (.id uuid) :=
  read_bytes (.id uuid)

@[simp] theorem read_ownerKey (creator : Principal) (name : TopicId) :
    (s.asCatalog root).read ((s.asCatalog root).ownerKey creator name) =
      s.get (.owner creator name) :=
  read_bytes (.owner creator name)

/-- What the calls keep to is what makes the pages exact. -/
theorem Kept.catalogued {used : TopicId → Prop} (kept : s.Kept used)
    (typed : ∀ name, used name → name.Typed)
    (apart : ∀ a b, used a → used b → topicUuid a = topicUuid b → a = b) :
    (s.asCatalog root).Catalogued where
  topics raw body held := by
    obtain ⟨key, same, there⟩ := read_eq_some.mp held
    obtain ⟨name, rfl, rfl⟩ := CatalogKey.eq_topic same
    obtain ⟨-, entry, decoded, rfl⟩ := kept.entries name body (.inr there)
    exact ⟨entry, rfl, decoded⟩
  tombstones name body held := by
    rw [read_tombstoneKey] at held
    exact (kept.entries name body (.inl held)).2
  ids name body created held := by
    rw [read_topicKey] at created
    rw [read_idKey] at held
    obtain ⟨there, created⟩ := Option.isSome_iff_exists.mp created
    obtain ⟨other, isUsed, same, rfl⟩ := kept.ids _ body held
    rw [apart other name isUsed (kept.entries name there (.inr created)).1 same]
  owners creator raw held := by
    obtain ⟨body, held⟩ := Option.isSome_iff_exists.mp held
    obtain ⟨key, same, there⟩ := read_eq_some.mp held
    obtain ⟨name, rfl, rfl⟩ := CatalogKey.eq_owner same
    exact ⟨name, typed name (kept.objects _ _ there), rfl⟩
  owned name body entry creator alive held decoded made := by
    rw [read_tombstoneKey] at alive
    rw [read_topicKey] at held
    rw [read_ownerKey]
    exact (kept.owned held decoded made).resolve_left (live_of_none alive)

/-- A topic that was created, to its id's object, and not deleted. -/
def Shown (s : CatalogStore) (name : TopicId) (entry : CatalogEntry) : Prop :=
  ¬ s.Tombed name ∧ s.Records name entry ∧ (s.get (.id (topicUuid name))).isSome

theorem visible_iff {name : TopicId} {entry : CatalogEntry} :
    (s.asCatalog root).Visible name entry ↔ s.Shown name entry := by
  constructor
  · rintro ⟨alive, ⟨body, held, decoded⟩, indexed⟩
    rw [read_tombstoneKey] at alive
    rw [read_topicKey] at held
    rw [read_idKey] at indexed
    have live := live_of_none alive
    exact ⟨live, ⟨body, (recorded_live live).trans held, decoded⟩, indexed⟩
  · rintro ⟨live, ⟨body, held, decoded⟩, indexed⟩
    refine ⟨?_, ⟨body, ?_, decoded⟩, ?_⟩
    · rw [read_tombstoneKey]
      exact Option.not_isSome_iff_eq_none.mp live
    · rw [read_topicKey]
      exact topic_live live held
    · rwa [read_idKey]

theorem length_stored : (s.stored root).length = s.objects.entries.length := by
  rw [stored, List.length_insertionSort, List.length_map]

theorem under_eq (stem : List UInt8) :
    s.under root stem = (s.asCatalog root).objects.under stem := by
  have perm : (s.under root stem).Perm ((s.asCatalog root).objects.under stem) := by
    refine (List.perm_insertionSort _ _).trans (List.Perm.filter _ ?_)
    refine List.Perm.trans ?_ ((List.perm_insertionSort _ _).map Prod.fst).symm
    rw [List.map_map]
    exact .of_eq (List.map_map ..)
  refine perm.eq_of_pairwise (fun a b _ _ => List.le_antisymm) (List.pairwise_insertionSort ..) ?_
  exact ((s.asCatalog root).objects.under_sorted stem).imp List.le_of_lt

end CatalogStore

namespace CatalogCall

variable {root : List UInt8} {who : Nat} {s : CatalogStore} {name : TopicId}

/-- A call that finds the store as it is until it returns. -/
abbrev Reads {α : Type} (root : List UInt8) (who : Nat) (s : CatalogStore) (call : CatalogCall α)
    (result : Except Error α) : Prop :=
  Asks.Peeks (fun s request => s.serve root who request (.fine 0)) s call result

theorem read_peeks (key : CatalogKey) : Reads root who s (read key) (.ok (s.get key)) := rfl

theorem tombstoneEntry_peeks :
    Reads root who s (tombstoneEntry name) ((s.asCatalog root).tombstoneEntry name) := by
  unfold tombstoneEntry ObjectStoreTopicCatalog.tombstoneEntry
  rw [CatalogStore.read_tombstoneKey]
  refine Peeks.next (read_peeks _) ?_
  cases s.get (.tombstone name) with
  | none => exact Peeks.pure _
  | some bytes =>
    exact Peeks.bind (Peeks.ofExcept _) fun entry _ => Peeks.ite (fun _ => Peeks.throw _)
      fun _ => Peeks.pure _

theorem tombstoneId_peeks :
    Reads root who s (tombstoneId name) ((s.asCatalog root).tombstoneId name) :=
  Peeks.bind tombstoneEntry_peeks fun _ _ => Peeks.pure _

theorem findEntry_peeks :
    Reads root who s (findEntry name) ((s.asCatalog root).findEntry name) := by
  unfold findEntry ObjectStoreTopicCatalog.findEntry
  rw [CatalogStore.read_topicKey]
  refine Peeks.next (read_peeks _) ?_
  cases s.get (.topic name) with
  | none => exact Peeks.pure _
  | some bytes =>
    exact Peeks.bind (Peeks.ofExcept _) fun entry _ => Peeks.ite (fun _ => Peeks.throw _)
      fun _ => Peeks.pure _

theorem find_peeks : Reads root who s (find name) ((s.asCatalog root).find name) := by
  refine Peeks.bind tombstoneId_peeks fun found _ => Peeks.ite (fun _ => Peeks.pure _) fun _ => ?_
  refine Peeks.bind findEntry_peeks fun found _ => ?_
  cases found with
  | none => exact Peeks.pure _
  | some entry =>
    dsimp only
    rw [CatalogStore.read_idKey]
    refine Peeks.next (read_peeks _) ?_
    cases s.get (.id entry.id) with
    | none => exact Peeks.pure _
    | some bytes =>
      refine Peeks.ite (fun _ => Peeks.throw _) fun _ => ?_
      exact Peeks.bind tombstoneId_peeks fun found _ => Peeks.ite (fun _ => Peeks.pure _)
        fun _ => Peeks.pure _

theorem seeTopic_peeks (key : List UInt8) :
    Reads root who s (seeTopic (CatalogKey.topics root) key) ((s.asCatalog root).seeTopic key) := by
  have same : spelled (CatalogKey.topics root) key =
      (ObjectStoreTopicCatalog.stripPrefix (s.asCatalog root).topics key).bind
        ObjectStoreTopicCatalog.nameOf := rfl
  unfold seeTopic ObjectStoreTopicCatalog.seeTopic
  rw [same]
  cases (ObjectStoreTopicCatalog.stripPrefix (s.asCatalog root).topics key).bind
      ObjectStoreTopicCatalog.nameOf with
  | none => exact Peeks.throw _
  | some name => exact Peeks.bind find_peeks fun _ _ => Peeks.pure _

theorem seeOwned_peeks (creator : Principal) (key : List UInt8) :
    Reads root who s (seeOwned creator (CatalogKey.ownerPrefix root creator) key)
      ((s.asCatalog root).seeOwned creator key) := by
  have same : CatalogKey.ownerPrefix root creator = (s.asCatalog root).ownerPrefix creator := rfl
  unfold seeOwned ObjectStoreTopicCatalog.seeOwned
  rw [same]
  cases ObjectStoreTopicCatalog.stripPrefix ((s.asCatalog root).ownerPrefix creator) key with
  | none => exact Peeks.throw _
  | some raw =>
    dsimp only
    cases ObjectStoreTopicCatalog.nameOf raw with
    | none => exact Peeks.throw _
    | some name => exact Peeks.bind find_peeks fun _ _ => Peeks.pure _

section
variable {stem : List UInt8} {see : List UInt8 → CatalogCall (Option TopicId)}
  {sees : List UInt8 → Except Error (Option TopicId)}
  (peeks : ∀ key, Reads root who s (see key) (sees key))
include peeks

theorem collect_peeks (limit : Nat) (keys : List (List UInt8)) (names : List TopicId) :
    Reads root who s (collect see limit keys names) (Listing.collect sees limit keys names) := by
  induction keys generalizing names with
  | nil => exact Peeks.pure _
  | cons key keys ih =>
    refine Peeks.bind (peeks key) fun found _ => ?_
    cases found with
    | none => exact ih names
    | some name => exact Peeks.ite (fun _ => Peeks.pure _) fun _ => ih _

/-- A walk that ran out of pages to read has no result, and is told none. -/
theorem walk_peeks (stopsShort : Bool) (limit fuel : Nat) (cursor : Option (List UInt8))
    (names : List TopicId) :
    Reads root who s (walk stem see stopsShort limit fuel cursor names)
      ((Listing.walk ((s.asCatalog root).objects.list stem) sees stopsShort limit fuel cursor
        names).elim (.ok none) (Except.map some)) := by
  induction fuel generalizing cursor names with
  | zero => exact Peeks.pure _
  | succ fuel ih =>
    unfold walk Listing.walk
    split
    · have keys : Reads root who s (keysUnder stem cursor (limit - names.length))
          (.ok ((s.asCatalog root).objects.list stem cursor (limit - names.length))) := by
        unfold Objects.list
        rw [← CatalogStore.under_eq]
        rfl
      refine Peeks.next keys ?_
      dsimp only
      cases ((s.asCatalog root).objects.list stem cursor (limit - names.length)).getLast? with
      | none => exact Peeks.pure _
      | some last =>
        have collects := collect_peeks peeks limit
          ((s.asCatalog root).objects.list stem cursor (limit - names.length)) names
        dsimp only
        cases ran : Listing.collect sees limit
            ((s.asCatalog root).objects.list stem cursor (limit - names.length)) names with
        | error e => exact Peeks.stop (ran ▸ collects)
        | ok more =>
          refine Peeks.next (ran ▸ collects) ?_
          dsimp only
          split
          · exact Peeks.pure _
          · split
            · exact Peeks.pure _
            · exact ih _ _
    · exact Peeks.pure _

end

theorem page_peeks (fuel : Nat) (after : Option TopicId) (limit : Nat) :
    Reads root who s (page root fuel after limit)
      (((s.asCatalog root).page fuel after limit).elim (.ok none) (Except.map some)) :=
  walk_peeks seeTopic_peeks true limit fuel _ []

theorem ownedPage_peeks (creator : Principal) (fuel : Nat) (after : Option TopicId) (limit : Nat) :
    Reads root who s (ownedPage root creator fuel after limit)
      (((s.asCatalog root).ownedPage creator fuel after limit).elim (.ok none)
        (Except.map some)) :=
  walk_peeks (seeOwned_peeks creator) false limit fuel _ []

end CatalogCall

section
variable {used : TopicId → Prop} {root : List UInt8} {actions : List (CatalogAction used)}
  {last : CatalogPool used}

/-- Wherever the calls of any nodes have got to, or stopped, a page that is read while none of
them goes on lists the first of the topics there are. -/
theorem pages_reached (typed : ∀ name, used name → name.Typed)
    (apart : ∀ a b, used a → used b → topicUuid a = topicUuid b → a = b)
    (ran : Steps.run (CatalogPool.step root) .start actions = some last) (who : Nat)
    (after : Option TopicId) (limit : Nat) {fuel : Nat}
    (enough : last.state.objects.entries.length < fuel) :
    (∃ all, InOrder all ∧
      (∀ name, name ∈ all ↔ (∃ entry, last.state.Shown name entry) ∧ Beyond after name) ∧
      CatalogCall.Reads root who last.state (CatalogCall.page root fuel after limit)
        (.ok (some (all.take limit)))) ∧
    ∀ creator, ∃ all, InOrder all ∧
      (∀ name, name ∈ all ↔
        (∃ entry, last.state.Shown name entry ∧ entry.creator = some creator) ∧
          Beyond after name) ∧
      CatalogCall.Reads root who last.state (CatalogCall.ownedPage root creator fuel after limit)
        (.ok (some (all.take limit))) := by
  have none : Steps.run (CatalogPool.step root) (.start : CatalogPool used) [] = some .start := rfl
  have kept : last.state.Kept used := (catalog_run typed none ran).2.1
  have catalogued : (last.state.asCatalog root).Catalogued := kept.catalogued typed apart
  have enough' : (last.state.asCatalog root).objects.entries.length < fuel :=
    CatalogStore.length_stored.trans_lt enough
  constructor
  · obtain ⟨all, ordered, among, page⟩ := catalogued.page_exact after limit enough'
    refine ⟨all, ordered, fun name => ?_, ?_⟩
    · simp only [among, CatalogStore.visible_iff]
    · have read : CatalogCall.Reads root who last.state _ _ :=
        CatalogCall.page_peeks fuel after limit
      rwa [page] at read
  · intro creator
    obtain ⟨all, ordered, among, page⟩ := catalogued.ownedPage_exact creator after limit enough'
    refine ⟨all, ordered, fun name => ?_, ?_⟩
    · simp only [among, CatalogStore.visible_iff]
    · have read : CatalogCall.Reads root who last.state _ _ :=
        CatalogCall.ownedPage_peeks creator fuel after limit
      rwa [page] at read

end

end Oqueue.Broker
