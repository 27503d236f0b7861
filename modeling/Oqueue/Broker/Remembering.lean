import Oqueue.Broker.Topics
import Oqueue.Core.FooterFormat

/-!
# What the calls of one node do to what they share

Every step is one of a few moves. Each keeps the cache in line with the catalog, leaves an
entry read earlier as good as it was unless its topic is gone, and takes one name out of the
cache at most.
-/

namespace Oqueue.Broker.Topics

def Served.Of (served : Served) (entry : CatalogEntry) : Prop :=
  served.id = entry.id ∧ served.partitions = entry.partitions ∧
    served.keyDomain = entry.keyDomain

namespace Shared

/-- Every live or cached entry is the one created under its name, and what is gone is
neither live nor cached. -/
structure Kept (shared : Shared) : Prop where
  lawful : shared.catalog.Lawful
  live : ∀ name entry, shared.catalog.lookup name = some entry →
    shared.created.lookup name = some entry
  known : ∀ name entry, shared.created.lookup name = some entry →
    entry.name = name ∧ name.Typed ∧ shared.catalog.Known name
  cached : ∀ name served, shared.cache.byName.lookup name = some served →
    ∃ entry, shared.created.lookup ⟨name⟩ = some entry ∧ served.Of entry
  indexed : ∀ id name, shared.cache.byId.lookup id = some name →
    id = topicUuid ⟨name⟩ ∧ (⟨name⟩ : TopicId).Typed
  gone : ∀ name ∈ shared.gone, name ∈ shared.catalog.tombstones ∧
    shared.cache.byName.lookup name.name = none

def Caches (shared : Shared) (name : String) : Prop :=
  (shared.cache.byName.lookup name).isSome

/-- What a step leaves, that takes this name at most out of the cache. -/
structure Moves (before after : Shared) (forgotten : Option String) : Prop where
  catalog : before.catalog.Later after.catalog
  created : ∀ name entry, before.created.lookup name = some entry →
    after.created.lookup name = some entry
  generation : before.cacheGeneration ≤ after.cacheGeneration
  gone : ∀ name ∈ before.gone, name ∈ after.gone
  buried : ∀ name ∈ after.gone, name ∈ before.gone ∨
    before.cacheGeneration < after.cacheGeneration
  same : forgotten = none → after.cacheGeneration = before.cacheGeneration
  caches : ∀ name, forgotten ≠ some name → before.Caches name → after.Caches name

structure Holds (shared : Shared) (entry : CatalogEntry) (generation : Nat) : Prop where
  past : generation ≤ shared.cacheGeneration
  created : shared.created.lookup entry.name = some entry
  gone : entry.name ∈ shared.gone → generation < shared.cacheGeneration

variable {shared after : Shared} {forgotten : Option String}

theorem Kept.notMem_gone (kept : shared.Kept) {name : String} (caches : shared.Caches name) :
    ⟨name⟩ ∉ shared.gone := by
  intro gone
  have := (kept.gone ⟨name⟩ gone).2
  unfold Caches at caches
  rw [this] at caches
  cases caches

theorem Kept.live_notMem_gone (kept : shared.Kept) {name : TopicId} {entry : CatalogEntry}
    (live : shared.catalog.lookup name = some entry) : name ∉ shared.gone := by
  intro gone
  have none := kept.lawful.buried name (kept.gone name gone).1
  rw [none] at live
  cases live

theorem Kept.holds (kept : shared.Kept) {name : TopicId} {entry : CatalogEntry}
    (live : shared.catalog.lookup name = some entry) {generation : Nat}
    (past : generation ≤ shared.cacheGeneration) : shared.Holds entry generation := by
  obtain rfl := kept.lawful.named name entry live
  exact ⟨past, kept.live _ _ live, fun gone => absurd gone (kept.live_notMem_gone live)⟩

theorem Holds.later (moves : shared.Moves after forgotten) {entry : CatalogEntry}
    {generation : Nat} (holds : shared.Holds entry generation) : after.Holds entry generation where
  past := holds.past.trans moves.generation
  created := moves.created _ _ holds.created
  gone := by
    intro gone
    rcases moves.buried _ gone with before | bumped
    · exact (holds.gone before).trans_le moves.generation
    · exact holds.past.trans_lt bumped

theorem Moves.lookup (kept : shared.Kept) (moves : shared.Moves after forgotten) {name : TopicId}
    {entry made : CatalogEntry} (created : shared.created.lookup name = some made)
    (live : after.catalog.lookup name = some entry) : shared.catalog.lookup name = some entry :=
  moves.catalog.lookup name entry live (kept.known name made created).2.2

theorem Moves.lookupId (kept : shared.Kept) (moves : shared.Moves after forgotten)
    {id : BitVec 128} {entry : CatalogEntry}
    (created : shared.created.lookup entry.name = some entry)
    (live : after.catalog.lookupId id = some entry) : shared.catalog.lookupId id = some entry :=
  moves.catalog.lookupId id entry live (kept.known _ _ created).2.2

theorem Moves.refl (shared : Shared) : shared.Moves shared forgotten where
  catalog := .refl _
  created := fun _ _ created => created
  generation := le_refl _
  gone := fun _ gone => gone
  buried := fun _ gone => Or.inl gone
  same := fun _ => rfl
  caches := fun _ _ caches => caches

theorem Kept.tick (kept : shared.Kept) (now : Nat) : Kept { shared with now } :=
  ⟨kept.lawful, kept.live, kept.known, kept.cached, kept.indexed, kept.gone⟩

theorem Moves.tick (shared : Shared) (now : Nat) : shared.Moves { shared with now } none := by
  have refl : shared.Moves shared none := .refl shared
  exact ⟨refl.catalog, refl.created, refl.generation, refl.gone, refl.buried, refl.same, refl.caches⟩

theorem Kept.forgetName (kept : shared.Kept) (name : String) (id : BitVec 128) :
    (shared.forgetName name id).Kept where
  lawful := kept.lawful
  live := kept.live
  known := kept.known
  cached := by
    intro other served cached
    have cached' := (Table.lookup_erase_eq _ _ _).symm.trans cached
    split at cached'
    · cases cached'
    · exact kept.cached other served cached'
  indexed := by
    intro id' other indexed
    have indexed' := (Table.lookup_erase_eq _ _ _).symm.trans indexed
    split at indexed'
    · cases indexed'
    · exact kept.indexed id' other indexed'
  gone := by
    intro other gone
    refine ⟨(kept.gone other gone).1, ?_⟩
    refine (Table.lookup_erase_eq _ _ _).trans ?_
    split
    · rfl
    · exact (kept.gone other gone).2

theorem Moves.forgetName (shared : Shared) (name : String) (id : BitVec 128) :
    shared.Moves (shared.forgetName name id) (some name) where
  catalog := .refl _
  created := fun _ _ created => created
  generation := Nat.le_succ _
  gone := fun _ gone => gone
  buried := fun _ gone => Or.inl gone
  same := nofun
  caches := by
    intro other differs caches
    have erased : (shared.forgetName name id).cache.byName.lookup other =
        shared.cache.byName.lookup other := by
      refine (Table.lookup_erase_eq _ _ _).trans (if_neg ?_)
      rintro rfl
      exact differs rfl
    unfold Caches
    rw [erased]
    exact caches

theorem Kept.bury (kept : shared.Kept) {name : TopicId}
    (reserved : name ∈ shared.catalog.tombstones) (id : BitVec 128) :
    Kept { shared.forgetName name.name id with gone := name :: shared.gone } := by
  have forgotten := kept.forgetName name.name id
  refine ⟨forgotten.lawful, forgotten.live, forgotten.known, forgotten.cached,
    forgotten.indexed, ?_⟩
  intro other gone
  rcases List.mem_cons.mp gone with rfl | gone
  · exact ⟨reserved, Finmap.lookup_erase _ _⟩
  · exact forgotten.gone other gone

theorem Moves.bury (shared : Shared) (name : TopicId) (id : BitVec 128) :
    shared.Moves { shared.forgetName name.name id with gone := name :: shared.gone }
      (some name.name) := by
  have forgotten := Moves.forgetName shared name.name id
  exact ⟨forgotten.catalog, forgotten.created, forgotten.generation,
    fun _ gone => List.mem_cons_of_mem _ gone, fun _ _ => Or.inr (Nat.lt_succ_self _),
    forgotten.same, forgotten.caches⟩

theorem rememberIfGeneration_of_ne {entry : CatalogEntry} {generation : Nat}
    (late : shared.cacheGeneration ≠ generation) :
    shared.rememberIfGeneration entry generation = (shared, none) :=
  if_pos late

theorem rememberIfGeneration_of_eq {entry : CatalogEntry} {generation : Nat}
    (now : shared.cacheGeneration = generation) :
    (shared.rememberIfGeneration entry generation).2 = some entry.name.name := by
  unfold rememberIfGeneration
  rw [if_neg (not_not.mpr now)]

theorem remembered_created (entry : CatalogEntry) (generation : Nat) :
    (shared.rememberIfGeneration entry generation).1.created = shared.created := by
  unfold rememberIfGeneration
  split
  · rfl
  · rfl

theorem remembered_gone (entry : CatalogEntry) (generation : Nat) :
    (shared.rememberIfGeneration entry generation).1.gone = shared.gone := by
  unfold rememberIfGeneration
  split
  · rfl
  · rfl

theorem lookup_remembered {entry : CatalogEntry} {generation : Nat}
    (now : shared.cacheGeneration = generation) (name : String) :
    (shared.rememberIfGeneration entry generation).1.cache.byName.lookup name =
      if name = entry.name.name then
        some ⟨entry.id, entry.partitions, entry.keyDomain, shared.now⟩
      else shared.cache.byName.lookup name := by
  unfold rememberIfGeneration
  rw [if_neg (not_not.mpr now)]
  exact Table.lookup_insert_eq _ _ _ _

theorem Kept.remember (kept : shared.Kept) {entry : CatalogEntry} {generation : Nat}
    (holds : shared.Holds entry generation) :
    (shared.rememberIfGeneration entry generation).1.Kept := by
  by_cases now : shared.cacheGeneration = generation
  · have lookup := @lookup_remembered shared entry _ now
    unfold rememberIfGeneration at lookup ⊢
    rw [if_neg (not_not.mpr now)] at lookup ⊢
    refine ⟨kept.lawful, kept.live, kept.known, ?_, ?_, ?_⟩
    · intro name served cached
      rw [lookup] at cached
      split at cached
      · rename_i same
        obtain rfl := same
        cases cached
        exact ⟨entry, holds.created, rfl, rfl, rfl⟩
      · exact kept.cached name served cached
    · intro id name indexed
      have indexed' := (Table.lookup_insert_eq _ _ _ _).symm.trans indexed
      split at indexed'
      · rename_i same
        cases indexed'
        exact ⟨same, (kept.known _ _ holds.created).2.1⟩
      · exact kept.indexed id name indexed'
    · intro name gone
      refine ⟨(kept.gone name gone).1, ?_⟩
      rw [lookup, if_neg]
      · exact (kept.gone name gone).2
      · intro same
        obtain rfl : name = entry.name := congrArg TopicId.mk same
        exact absurd now (holds.gone gone).ne'
  · rw [rememberIfGeneration_of_ne now]
    exact kept

theorem Moves.remember (shared : Shared) (entry : CatalogEntry) (generation : Nat) :
    shared.Moves (shared.rememberIfGeneration entry generation).1 none := by
  by_cases now : shared.cacheGeneration = generation
  · have lookup := @lookup_remembered shared entry _ now
    unfold rememberIfGeneration at lookup ⊢
    rw [if_neg (not_not.mpr now)] at lookup ⊢
    refine ⟨.refl _, fun _ _ created => created, le_refl _, fun _ gone => gone,
      fun _ gone => Or.inl gone, fun _ => rfl, ?_⟩
    intro name _ caches
    unfold Caches
    rw [lookup]
    split
    · rfl
    · exact caches
  · rw [rememberIfGeneration_of_ne now]
    exact .refl _

theorem Holds.caches {entry : CatalogEntry} {generation : Nat} (now : shared.cacheGeneration = generation) :
    (shared.rememberIfGeneration entry generation).1.Caches entry.name.name := by
  unfold Caches
  rw [lookup_remembered now, if_pos rfl]
  rfl

/-- What creating an entry does, whoever asks for it. -/
theorem Kept.create (kept : shared.Kept) {entry made : CatalogEntry} {catalog : Catalog}
    (typed : entry.name.Typed) (created : shared.catalog.createEntry entry = .ok (catalog, made)) :
    (shared.withCreated catalog made).Kept ∧
      shared.Moves (shared.withCreated catalog made) none ∧ made.name = entry.name ∧
      catalog.lookup made.name = some made := by
  have lookup (name : TopicId) : (shared.withCreated catalog made).created.lookup name =
      if name = made.name then some made else shared.created.lookup name :=
    Table.lookup_insert_eq _ _ _ _
  rcases Catalog.createEntry_eq_ok created with ⟨rfl, found⟩ | ⟨fresh, rfl, rfl⟩
  · have named := kept.lawful.named _ _ found
    have already := kept.live _ _ found
    -- the entry was there: nothing changes
    have same (name : TopicId) : (shared.withCreated shared.catalog made).created.lookup name =
        shared.created.lookup name := by
      rw [lookup]
      split
      · rename_i same
        rw [same, named, already]
      · rfl
    refine ⟨⟨kept.lawful, ?_, ?_, ?_, kept.indexed, kept.gone⟩, ?_, named, ?_⟩
    · intro name entry live
      rw [same]
      exact kept.live name entry live
    · intro name entry
      rw [same]
      exact kept.known name entry
    · intro name served cached
      rw [same]
      exact kept.cached name served cached
    · refine ⟨.refl _, ?_, le_refl _, fun _ gone => gone, fun _ gone => Or.inl gone,
        fun _ => rfl, fun _ _ caches => caches⟩
      intro name entry before
      rw [same]
      exact before
    · rw [named]
      exact found
  · have before {name : TopicId} {entry : CatalogEntry}
        (held : shared.created.lookup name = some entry) : name ≠ made.name := by
      rintro rfl
      exact fresh (kept.known _ _ held).2.2
    have later := Catalog.later_insert fresh
    refine ⟨⟨kept.lawful.insert fresh, ?_, ?_, ?_, kept.indexed, kept.gone⟩, ?_, rfl, ?_⟩
    · intro name entry live
      replace live := (Catalog.lookup_insert made name).symm.trans live
      rw [lookup]
      split at live
      · rename_i same
        rw [if_pos same]
        exact live
      · rename_i differs
        rw [if_neg differs]
        exact kept.live name entry live
    · intro name entry held
      rw [lookup] at held
      split at held
      · rename_i same
        cases held
        refine ⟨same.symm, same ▸ typed, Or.inl ⟨made, ?_⟩⟩
        exact (Catalog.lookup_insert made name).trans (if_pos same)
      · obtain ⟨named, typed, known⟩ := kept.known name entry held
        exact ⟨named, typed, later.known name known⟩
    · intro name served cached
      obtain ⟨entry, held, of⟩ := kept.cached name served cached
      refine ⟨entry, ?_, of⟩
      rw [lookup, if_neg (before held)]
      exact held
    · refine ⟨later, ?_, le_refl _, fun _ gone => gone, fun _ gone => Or.inl gone,
        fun _ => rfl, fun _ _ caches => caches⟩
      intro name entry held
      rw [lookup, if_neg (before held)]
      exact held
    · exact (Catalog.lookup_insert made made.name).trans (if_pos rfl)

/-- What asking the catalog to delete does, before the cache hears of it. -/
theorem Kept.delete (kept : shared.Kept) (name : TopicId) (expectedId : Option (BitVec 128)) :
    Kept { shared with catalog := (shared.catalog.delete name expectedId).1 } ∧
      shared.Moves { shared with catalog := (shared.catalog.delete name expectedId).1 } none := by
  rcases shared.catalog.delete_cases name expectedId with
    ⟨entry, live, deleted⟩ | ⟨id, -, deleted⟩ | deleted | ⟨expected, actual, deleted⟩
  · rw [deleted]
    have later := @Catalog.later_bury shared.catalog entry
    refine ⟨⟨kept.lawful.bury entry, ?_, ?_, kept.cached, kept.indexed, ?_⟩, later,
      fun _ _ created => created, le_refl _, fun _ gone => gone, fun _ gone => Or.inl gone,
      fun _ => rfl, fun _ _ caches => caches⟩
    · intro other entry' live'
      replace live' := (Catalog.lookup_bury entry other).symm.trans live'
      split at live'
      · cases live'
      · exact kept.live other entry' live'
    · intro other entry' created
      obtain ⟨named, typed, known⟩ := kept.known other entry' created
      exact ⟨named, typed, later.known other known⟩
    · intro other gone
      exact ⟨later.reserved other (kept.gone other gone).1, (kept.gone other gone).2⟩
  all_goals
    rw [deleted]
    exact ⟨kept, .refl _⟩

end Shared

end Oqueue.Broker.Topics
