import Oqueue.Broker.Authz
import Oqueue.Core.Region
import Oqueue.Library.Table

/-!
# What topics exist

A catalog whose requests take effect at once. A name is created at most once: deletion
leaves a tombstone, and creation refuses the name forever.
-/

namespace Oqueue.Broker

/-- A topic's id, derived from its name: FNV-1a over the name's bytes, with the version
nibble set to 8 and the variant bits. -/
def topicUuid (name : TopicId) : BitVec 128 :=
  let hash := (Segment.utf8 name.name).foldl
    (fun hash byte => (hash ^^^ byte.toBitVec.setWidth 128) * 0x0000000001000000000000000000013b#128)
    0x6c62272e07bb014262b821756295c58d#128
  let version := 0x8#128 <<< 76
  let variant := 0x2#128 <<< 62
  (hash &&& ~~~(0xf#128 <<< 76) &&& ~~~(0x3#128 <<< 62)) ||| version ||| variant

/-- One topic's catalog entry. Its id is its name's. -/
structure CatalogEntry where
  name : TopicId
  partitions : Nat
  keyDomain : KeyDomain := .defaultDomain
  creator : Option Principal := none
  deriving DecidableEq, Repr

def CatalogEntry.id (entry : CatalogEntry) : BitVec 128 := topicUuid entry.name

inductive TopicDeleteOutcome where
  | deleted (entry : CatalogEntry)
  | alreadyDeleted (id : BitVec 128)
  | missing
  | staleId (expected actual : BitVec 128)
  deriving DecidableEq, Repr

structure Catalog where
  byName : Finmap fun _ : TopicId => CatalogEntry := ∅
  byId : Finmap fun _ : BitVec 128 => TopicId := ∅
  tombstones : Finmap fun _ : TopicId => BitVec 128 := ∅

namespace Catalog

def lookup (catalog : Catalog) (name : TopicId) : Option CatalogEntry :=
  catalog.byName.lookup name

def lookupId (catalog : Catalog) (id : BitVec 128) : Option CatalogEntry :=
  (catalog.byId.lookup id).bind catalog.lookup

def insert (catalog : Catalog) (entry : CatalogEntry) : Catalog :=
  { catalog with
    byId := catalog.byId.insert entry.id entry.name
    byName := catalog.byName.insert entry.name entry }

/-- Creates this entry if its name is neither taken nor reserved; the entry that exists
afterwards either way. -/
def createEntry (catalog : Catalog) (entry : CatalogEntry) :
    Except Error (Catalog × CatalogEntry) :=
  if entry.name ∈ catalog.tombstones then .error .topicNameReserved
  else match catalog.lookup entry.name with
    | some existing => .ok (catalog, existing)
    | none => .ok (catalog.insert entry, entry)

def createWithKeyDomain (catalog : Catalog) (name : TopicId) (partitions : Nat)
    (keyDomain : KeyDomain) : Except Error (Catalog × CatalogEntry) :=
  catalog.createEntry { name, partitions, keyDomain }

def create (catalog : Catalog) (name : TopicId) (partitions : Nat) :
    Except Error (Catalog × CatalogEntry) :=
  catalog.createWithKeyDomain name partitions .defaultDomain

def createOwned (catalog : Catalog) (name : TopicId) (partitions : Nat) (creator : Principal) :
    Except Error (Catalog × CatalogEntry) :=
  catalog.createEntry { name, partitions, creator := some creator }

/-- Puts a tombstone in the entry's place. -/
def bury (catalog : Catalog) (entry : CatalogEntry) : Catalog where
  tombstones := catalog.tombstones.insert entry.name entry.id
  byName := catalog.byName.erase entry.name
  byId := catalog.byId.erase entry.id

def delete (catalog : Catalog) (name : TopicId) (expectedId : Option (BitVec 128)) :
    Catalog × TopicDeleteOutcome :=
  match catalog.tombstones.lookup name with
  | some id => match expectedId with
    | none => (catalog, .alreadyDeleted id)
    | some expected =>
      if expected = id then (catalog, .alreadyDeleted id)
      else (catalog, .staleId expected id)
  | none => match catalog.lookup name with
    | none => (catalog, .missing)
    | some entry => match expectedId with
      | none => (catalog.bury entry, .deleted entry)
      | some expected =>
        if expected ≠ entry.id then (catalog, .staleId expected entry.id)
        else (catalog.bury entry, .deleted entry)

/-- Entries are kept under their names and ids, and tombstones in the place of entries. -/
structure Lawful (catalog : Catalog) : Prop where
  named : ∀ name entry, catalog.lookup name = some entry → entry.name = name
  indexed : ∀ id name, catalog.byId.lookup id = some name → id = topicUuid name
  buried : ∀ name ∈ catalog.tombstones, catalog.lookup name = none

/-- Whether this name was ever created. -/
def Known (catalog : Catalog) (name : TopicId) : Prop :=
  (∃ entry, catalog.lookup name = some entry) ∨ name ∈ catalog.tombstones

/-- What later moves of a catalog leave alone: a known name stays known, and finds its old
entry or none. -/
structure Later (before after : Catalog) : Prop where
  known : ∀ name, before.Known name → after.Known name
  reserved : ∀ name ∈ before.tombstones, name ∈ after.tombstones
  lookup : ∀ name entry, after.lookup name = some entry → before.Known name →
    before.lookup name = some entry
  lookupId : ∀ id entry, after.lookupId id = some entry → before.Known entry.name →
    before.lookupId id = some entry

variable {catalog later : Catalog}

theorem Lawful.id_eq (lawful : catalog.Lawful) {id : BitVec 128} {entry : CatalogEntry}
    (found : catalog.lookupId id = some entry) : entry.id = id := by
  obtain ⟨name, indexed, found⟩ := Option.bind_eq_some_iff.mp found
  rw [lawful.indexed id name indexed, ← lawful.named name entry found]
  rfl

theorem lawful_empty : Lawful {} where
  named := fun _ _ found => nomatch found
  indexed := fun _ _ indexed => nomatch indexed
  buried := fun _ reserved => absurd reserved (Finmap.notMem_empty)

theorem Later.refl (catalog : Catalog) : catalog.Later catalog where
  known := fun _ known => known
  reserved := fun _ reserved => reserved
  lookup := fun _ _ found _ => found
  lookupId := fun _ _ found _ => found

theorem lookup_insert (entry : CatalogEntry) (name : TopicId) :
    (catalog.insert entry).lookup name =
      if name = entry.name then some entry else catalog.lookup name :=
  Table.lookup_insert_eq _ _ _ _

theorem lookup_bury (entry : CatalogEntry) (name : TopicId) :
    (catalog.bury entry).lookup name = if name = entry.name then none else catalog.lookup name :=
  Table.lookup_erase_eq _ _ _

/-- What an attempt to create leaves behind. -/
theorem createEntry_eq_ok {entry made : CatalogEntry}
    (created : catalog.createEntry entry = .ok (later, made)) :
    (later = catalog ∧ catalog.lookup entry.name = some made) ∨
      (¬ catalog.Known entry.name ∧ made = entry ∧ later = catalog.insert entry) := by
  unfold createEntry at created
  split at created
  · cases created
  · rename_i free
    cases found : catalog.lookup entry.name with
    | some existing =>
      rw [found] at created
      cases created
      exact Or.inl ⟨rfl, rfl⟩
    | none =>
      rw [found] at created
      cases created
      refine Or.inr ⟨?_, rfl, rfl⟩
      rintro (⟨entry', found'⟩ | reserved)
      · rw [found] at found'
        cases found'
      · exact free reserved

theorem delete_cases (catalog : Catalog) (name : TopicId) (expectedId : Option (BitVec 128)) :
    (∃ entry, catalog.lookup name = some entry ∧
      catalog.delete name expectedId = (catalog.bury entry, .deleted entry)) ∨
    (∃ id, catalog.tombstones.lookup name = some id ∧
      catalog.delete name expectedId = (catalog, .alreadyDeleted id)) ∨
    catalog.delete name expectedId = (catalog, .missing) ∨
    ∃ expected actual, catalog.delete name expectedId = (catalog, .staleId expected actual) := by
  unfold delete
  cases catalog.tombstones.lookup name with
  | some id =>
    cases expectedId with
    | none => exact Or.inr (Or.inl ⟨id, rfl, rfl⟩)
    | some expected =>
      by_cases same : expected = id
      · simp [same]
      · simp [same]
  | none =>
    cases catalog.lookup name with
    | none => simp
    | some entry =>
      cases expectedId with
      | none => exact Or.inl ⟨entry, rfl, rfl⟩
      | some expected =>
        by_cases same : expected = entry.id
        · simp [same]
        · simp [same]

theorem Lawful.insert (lawful : catalog.Lawful) {entry : CatalogEntry}
    (fresh : ¬ catalog.Known entry.name) : (catalog.insert entry).Lawful where
  named := by
    intro name found
    rw [lookup_insert]
    split
    · rintro ⟨rfl⟩
      exact Eq.symm ‹_›
    · exact lawful.named name found
  indexed := by
    intro id name indexed
    have indexed' := (Table.lookup_insert_eq _ _ _ _).symm.trans indexed
    split at indexed'
    · rename_i same
      cases indexed'
      exact same
    · exact lawful.indexed id name indexed'
  buried := by
    intro name reserved
    rw [lookup_insert, if_neg]
    · exact lawful.buried name reserved
    · rintro rfl
      exact fresh (Or.inr reserved)

theorem Lawful.bury (lawful : catalog.Lawful) (entry : CatalogEntry) :
    (catalog.bury entry).Lawful where
  named := by
    intro name found
    rw [lookup_bury]
    split
    · exact nofun
    · exact lawful.named name found
  indexed := by
    intro id name indexed
    have indexed' := (Table.lookup_erase_eq _ _ _).symm.trans indexed
    split at indexed'
    · cases indexed'
    · exact lawful.indexed id name indexed'
  buried := by
    intro name reserved
    rw [lookup_bury]
    split
    · rfl
    · rename_i differs
      rcases Finmap.mem_insert.mp reserved with same | reserved
      · exact absurd same differs
      · exact lawful.buried name reserved

theorem later_insert {entry : CatalogEntry} (fresh : ¬ catalog.Known entry.name) :
    catalog.Later (catalog.insert entry) where
  known := by
    rintro name (⟨found, lookup⟩ | reserved)
    · refine Or.inl ⟨found, ?_⟩
      rw [lookup_insert, if_neg]
      · exact lookup
      · rintro rfl
        exact fresh (Or.inl ⟨found, lookup⟩)
    · exact Or.inr reserved
  reserved := fun _ reserved => reserved
  lookup := by
    intro name found lookup known
    rw [lookup_insert, if_neg] at lookup
    · exact lookup
    · rintro rfl
      exact fresh known
  lookupId := by
    intro id found lookup known
    obtain ⟨name, under, lookup⟩ := Option.bind_eq_some_iff.mp lookup
    have under' : (if id = entry.id then some entry.name else catalog.byId.lookup id) = some name :=
      (Table.lookup_insert_eq _ _ _ _).symm.trans under
    rw [lookup_insert] at lookup
    by_cases same : name = entry.name
    · rw [if_pos same] at lookup
      cases lookup
      exact absurd known fresh
    · rw [if_neg same] at lookup
      split at under'
      · cases under'
        exact absurd rfl same
      · exact Option.bind_eq_some_iff.mpr ⟨name, under', lookup⟩

theorem later_bury {entry : CatalogEntry} : catalog.Later (catalog.bury entry) where
  known := by
    intro name known
    by_cases same : name = entry.name
    · exact Or.inr (Finmap.mem_insert.mpr (Or.inl same))
    · rcases known with ⟨found, lookup⟩ | reserved
      · refine Or.inl ⟨found, ?_⟩
        rw [lookup_bury, if_neg same]
        exact lookup
      · exact Or.inr (Finmap.mem_insert.mpr (Or.inr reserved))
  reserved := fun name reserved => Finmap.mem_insert.mpr (Or.inr reserved)
  lookup := by
    intro name found lookup _
    rw [lookup_bury] at lookup
    split at lookup
    · cases lookup
    · exact lookup
  lookupId := by
    intro id found lookup _
    obtain ⟨name, under, lookup⟩ := Option.bind_eq_some_iff.mp lookup
    have under' : (if id = entry.id then none else catalog.byId.lookup id) = some name :=
      (Table.lookup_erase_eq _ _ _).symm.trans under
    rw [lookup_bury] at lookup
    split at lookup
    · cases lookup
    · split at under'
      · cases under'
      · exact Option.bind_eq_some_iff.mpr ⟨name, under', lookup⟩

end Catalog

end Oqueue.Broker
