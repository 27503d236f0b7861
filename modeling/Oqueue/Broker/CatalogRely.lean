import Oqueue.Broker.CatalogCalls

/-!
# What the catalog's calls rely on

Whatever the calls under way have got to, a name's recorded entry stays what it is: the
tombstone that hides a topic holds the entry the topic had, and only what a tombstone hides
is deleted. An id's object lasts as long as no tombstone has that id.
-/

namespace Oqueue.Broker

open Segment Bytes

namespace CatalogStore

def Tombed (self : CatalogStore) (name : TopicId) : Prop := (self.get (.tombstone name)).isSome

/-- What is recorded under a name: its tombstone's bytes, or else its topic's. -/
def recorded (self : CatalogStore) (name : TopicId) : Option (List UInt8) :=
  (self.get (.tombstone name)).or (self.get (.topic name))

/-- A creator's key for a topic is there, unless a tombstone hides the topic. -/
def Owned (self : CatalogStore) (creator : Principal) (name : TopicId) : Prop :=
  self.Tombed name ∨ (self.get (.owner creator name)).isSome

def Records (self : CatalogStore) (name : TopicId) (entry : CatalogEntry) : Prop :=
  ∃ body, self.recorded name = some body ∧ StoredCatalog.decode body = .ok entry

/-- What an object of the catalog may be, whatever its calls get to. -/
def Holds (used : TopicId → Prop) (s : CatalogStore) (body : List UInt8) : CatalogKey → Prop
  | .topic name => used name ∧ ∃ entry, StoredCatalog.decode body = .ok entry ∧ entry.name = name ∧
      ∀ creator, entry.creator = some creator → s.Owned creator name
  | .tombstone name => used name ∧
      ∃ entry, StoredCatalog.decode body = .ok entry ∧ entry.name = name
  | .id uuid => ∃ name, used name ∧ topicUuid name = uuid ∧ body = utf8 name.name
  | .owner _ name => used name
  | .retention _ => True

structure Kept (used : TopicId → Prop) (s : CatalogStore) : Prop where
  objects : ∀ key body, s.get key = some body → s.Holds used body key
  founded : ∀ name, (s.founder.lookup name).isSome ↔ (s.recorded name).isSome
  buried : ∀ name, (s.burier.lookup name).isSome ↔ s.Tombed name

structure Later (s t : CatalogStore) : Prop where
  recorded : ∀ name body, s.recorded name = some body → t.recorded name = some body
  tombed : ∀ name, s.Tombed name → t.Tombed name
  founder : ∀ name who, s.founder.lookup name = some who → t.founder.lookup name = some who
  burier : ∀ name who, s.burier.lookup name = some who → t.burier.lookup name = some who
  ids : ∀ uuid body, s.get (.id uuid) = some body →
    (∀ name, topicUuid name = uuid → ¬ t.Tombed name) → t.get (.id uuid) = some body
  owned : ∀ creator name, s.Owned creator name → t.Owned creator name

theorem Later.refl (s : CatalogStore) : Later s s where
  recorded _ _ held := held
  tombed _ held := held
  founder _ _ held := held
  burier _ _ held := held
  ids _ _ held _ := held
  owned _ _ held := held

theorem Later.trans {s t u : CatalogStore} (first : Later s t) (second : Later t u) :
    Later s u where
  recorded name body held := second.recorded name body (first.recorded name body held)
  tombed name held := second.tombed name (first.tombed name held)
  founder name who held := second.founder name who (first.founder name who held)
  burier name who held := second.burier name who (first.burier name who held)
  ids uuid body held apart := second.ids uuid body
    (first.ids uuid body held fun name same dead => apart name same (second.tombed name dead)) apart
  owned creator name held := second.owned creator name (first.owned creator name held)

section
variable {self : CatalogStore} {who : Nat} {key other : CatalogKey} {body : List UInt8}

@[simp] theorem get_put : (self.put who key body).get key = some body := AList.lookup_insert _

theorem get_put_ne (ne : other ≠ key) : (self.put who key body).get other = self.get other :=
  AList.lookup_insert_ne ne

@[simp] theorem get_delete : (self.delete key).get key = none := AList.lookup_erase _ _

theorem get_delete_ne (ne : other ≠ key) : (self.delete key).get other = self.get other :=
  AList.lookup_erase_ne ne

theorem recorded_tombed {name : TopicId} (held : self.get (.tombstone name) = some body) :
    self.recorded name = some body := by
  rw [recorded, held]
  rfl

theorem live_of_none {name : TopicId} (absent : self.get (.tombstone name) = none) :
    ¬ self.Tombed name := by
  rw [Tombed, absent]
  exact nofun

theorem recorded_live {name : TopicId} (live : ¬ self.Tombed name) :
    self.recorded name = self.get (.topic name) := by
  rw [recorded, Option.not_isSome_iff_eq_none.mp live]
  rfl

end

section
variable {used : TopicId → Prop} {s t : CatalogStore} {name : TopicId} {body : List UInt8}

theorem topic_live (live : ¬ s.Tombed name) (held : s.recorded name = some body) :
    s.get (.topic name) = some body :=
  recorded_live live ▸ held

theorem Kept.entries (kept : s.Kept used) (name : TopicId) (body : List UInt8)
    (held : s.get (.tombstone name) = some body ∨ s.get (.topic name) = some body) :
    used name ∧ ∃ entry, StoredCatalog.decode body = .ok entry ∧ entry.name = name := by
  rcases held with held | held
  · exact kept.objects _ _ held
  · obtain ⟨isUsed, entry, decoded, named, -⟩ := kept.objects _ _ held
    exact ⟨isUsed, entry, decoded, named⟩

theorem Kept.ids (kept : s.Kept used) (uuid : BitVec 128) (body : List UInt8)
    (held : s.get (.id uuid) = some body) :
    ∃ name, used name ∧ topicUuid name = uuid ∧ body = utf8 name.name :=
  kept.objects _ _ held

theorem Kept.owned (kept : s.Kept used) {entry : CatalogEntry} {creator : Principal}
    (held : s.get (.topic name) = some body) (decoded : StoredCatalog.decode body = .ok entry)
    (made : entry.creator = some creator) : s.Owned creator name := by
  obtain ⟨-, other, again, -, owned⟩ := kept.objects _ _ held
  cases decoded.symm.trans again
  exact owned creator made

theorem Kept.of_recorded (kept : s.Kept used) (held : s.recorded name = some body) :
    used name ∧ ∃ entry, StoredCatalog.decode body = .ok entry ∧ entry.name = name := by
  apply kept.entries name body
  unfold recorded at held
  cases found : s.get (.tombstone name) with
  | none => exact .inr (by rwa [found, Option.none_or] at held)
  | some hidden => exact .inl (by rwa [found, Option.some_or] at held)

theorem Holds.later (key : CatalogKey) (later : Later s t) (holds : s.Holds used body key) :
    t.Holds used body key := by
  cases key with
  | topic name =>
    obtain ⟨isUsed, entry, decoded, named, owned⟩ := holds
    exact ⟨isUsed, entry, decoded, named, fun creator made =>
      later.owned creator name (owned creator made)⟩
  | id | owner | tombstone | retention => exact holds

theorem Kept.objects_put {key : CatalogKey} {who : Nat} (kept : s.Kept used)
    (later : Later s (s.put who key body)) (holds : s.Holds used body key) (other : CatalogKey)
    (b : List UInt8) (held : (s.put who key body).get other = some b) :
    (s.put who key body).Holds used b other := by
  by_cases same : other = key
  · subst same
    rw [get_put] at held
    cases held
    exact Holds.later other later holds
  · rw [get_put_ne same] at held
    exact Holds.later other later (kept.objects other b held)

/-- A change that leaves what is recorded, and every tombstone. -/
theorem Later.of_same (recorded : ∀ name, t.recorded name = s.recorded name)
    (tombstones : ∀ name, t.get (.tombstone name) = s.get (.tombstone name))
    (founder : t.founder = s.founder) (burier : t.burier = s.burier)
    (still : ∀ uuid body, s.get (.id uuid) = some body →
      (∀ name, topicUuid name = uuid → ¬ s.Tombed name) → t.get (.id uuid) = some body)
    (owned : ∀ creator name, s.Owned creator name → t.Owned creator name) : Later s t where
  recorded name _ held := (recorded name).trans held
  tombed name dead := by rwa [Tombed, tombstones]
  founder _ _ held := founder ▸ held
  burier _ _ held := burier ▸ held
  ids uuid body held apart := still uuid body held fun name same dead =>
    apart name same (by rwa [Tombed, tombstones])
  owned := owned

theorem Kept.of_same (kept : s.Kept used)
    (objects : ∀ key body, t.get key = some body → t.Holds used body key)
    (recorded : ∀ name, t.recorded name = s.recorded name)
    (tombstones : ∀ name, t.get (.tombstone name) = s.get (.tombstone name))
    (founder : t.founder = s.founder) (burier : t.burier = s.burier) : t.Kept used where
  objects := objects
  founded name := by
    rw [founder, recorded]
    exact kept.founded name
  buried name := by
    rw [burier, Tombed, tombstones]
    exact kept.buried name

/-- Objects that only a tombstone's name has. -/
def Dead (s : CatalogStore) : CatalogKey → Prop
  | .topic name => s.Tombed name
  | .id uuid => ∃ name, topicUuid name = uuid ∧ s.Tombed name
  | .tombstone _ => False
  | .owner _ name => s.Tombed name
  | .retention _ => True

/-- What the catalog's calls ask of the store. -/
def Sound (used : TopicId → Prop) (s : CatalogStore) : CatalogRequest → Prop
  | .putAbsent (.tombstone name) body => s.Tombed name ∨ s.recorded name = some body
  | .putAbsent key body => s.Holds used body key
  | .deleteOne batch => ∀ key ∈ batch, s.Dead key
  | .get _ | .list _ _ _ => True

theorem Dead.later {key : CatalogKey} (later : Later s t) (dead : s.Dead key) : t.Dead key := by
  cases key with
  | topic name => exact later.tombed name dead
  | id uuid =>
    obtain ⟨name, same, dead⟩ := dead
    exact ⟨name, same, later.tombed name dead⟩
  | tombstone name => exact dead
  | owner creator name => exact later.tombed name dead
  | retention => trivial

theorem Sound.later {request : CatalogRequest} (later : Later s t) (sound : Sound used s request) :
    Sound used t request := by
  cases request with
  | get | list => trivial
  | deleteOne batch => exact fun key among => (sound key among).later later
  | putAbsent key body =>
    cases key with
    | tombstone name => exact sound.imp (later.tombed name) (later.recorded name body)
    | topic name => exact Holds.later (.topic name) later sound
    | id | owner | retention => exact sound

theorem founder_put_live {who : Nat} (live : ¬ s.Tombed name) :
    (s.put who (.topic name) body).founder = s.founder.insert name who := by
  have none : s.get (.tombstone name) = none := Option.not_isSome_iff_eq_none.mp live
  simp [put, none]

theorem founder_put_tombed {who : Nat} (hidden : s.Tombed name) :
    (s.put who (.topic name) body).founder = s.founder := by
  obtain ⟨tombstone, held⟩ := Option.isSome_iff_exists.mp hidden
  simp [put, held]

theorem tombed_put_topic {who : Nat} {other : TopicId} :
    (s.put who (.topic name) body).Tombed other ↔ s.Tombed other := by
  rw [Tombed, get_put_ne CatalogKey.noConfusion, Tombed]

theorem founder_put_ne {who : Nat} {other : TopicId} (ne : other ≠ name) :
    (s.put who (.topic name) body).founder.lookup other = s.founder.lookup other := by
  by_cases hidden : s.Tombed name
  · rw [founder_put_tombed hidden]
  · rw [founder_put_live hidden, AList.lookup_insert_ne ne]

theorem recorded_put_ne {who : Nat} {other : TopicId} (ne : other ≠ name) :
    (s.put who (.topic name) body).recorded other = s.recorded other := by
  rw [recorded, get_put_ne CatalogKey.noConfusion,
    get_put_ne fun same => ne (CatalogKey.topic.inj same), recorded]

theorem put_topic_later (who : Nat) (kept : s.Kept used) (absent : s.get (.topic name) = none) :
    Later s (s.put who (.topic name) body) where
  tombed _ := tombed_put_topic.mpr
  burier _ _ held := held
  ids _ _ held _ := (get_put_ne CatalogKey.noConfusion).trans held
  owned creator m := by
    rw [Owned, Owned, tombed_put_topic, get_put_ne CatalogKey.noConfusion]
    exact id
  recorded m b held := by
    by_cases same : m = name
    · subst same
      cases found : s.get (.tombstone m) with
      | none =>
        rw [recorded, found, absent] at held
        cases held
      | some tombstone =>
        rw [recorded_tombed found] at held
        rw [recorded_tombed ((get_put_ne CatalogKey.noConfusion).trans found), held]
    · rwa [recorded_put_ne same]
  founder m w held := by
    by_cases same : m = name
    · subst same
      by_cases hidden : s.Tombed m
      · rwa [founder_put_tombed hidden]
      · have founded := (kept.founded m).mp (Option.isSome_iff_exists.mpr ⟨w, held⟩)
        rw [recorded_live hidden, absent] at founded
        cases founded
    · rwa [founder_put_ne same]

theorem put_topic_kept (who : Nat) (kept : s.Kept used) (absent : s.get (.topic name) = none)
    (sound : Sound used s (.putAbsent (.topic name) body)) :
    (s.put who (.topic name) body).Kept used where
  objects := kept.objects_put (put_topic_later who kept absent) sound
  founded m := by
    by_cases same : m = name
    · subst same
      have there : ((s.put who (.topic m) body).recorded m).isSome := by
        rw [recorded, get_put, Option.isSome_or]
        exact Bool.or_true _
      refine iff_of_true ?_ there
      by_cases hidden : s.Tombed m
      · rw [founder_put_tombed hidden, kept.founded, recorded, Option.isSome_or]
        exact Bool.or_eq_true_iff.mpr (.inl hidden)
      · rw [founder_put_live hidden, AList.lookup_insert]
        rfl
    · rw [founder_put_ne same, recorded_put_ne same]
      exact kept.founded m
  buried m := by
    rw [tombed_put_topic]
    exact kept.buried m

theorem tombed_put_tombstone (who : Nat) (m : TopicId) (dead : s.Tombed m) :
    (s.put who (.tombstone name) body).Tombed m := by
  by_cases same : m = name
  · subst same
    rw [Tombed, get_put]
    rfl
  · rwa [Tombed, get_put_ne fun same' => same (CatalogKey.tombstone.inj same')]

/-- A tombstone holds what was recorded. -/
theorem recorded_put_tombstone (who : Nat) (held : s.recorded name = some body) (m : TopicId) :
    (s.put who (.tombstone name) body).recorded m = s.recorded m := by
  by_cases same : m = name
  · subst same
    rw [recorded_tombed get_put, held]
  · rw [recorded, get_put_ne fun same' => same (CatalogKey.tombstone.inj same'),
      get_put_ne CatalogKey.noConfusion, recorded]

theorem put_tombstone_later (who : Nat) (kept : s.Kept used)
    (absent : s.get (.tombstone name) = none) (held : s.recorded name = some body) :
    Later s (s.put who (.tombstone name) body) where
  recorded m _ found := (recorded_put_tombstone who held m).trans found
  tombed := tombed_put_tombstone who
  founder _ _ found := found
  ids _ _ found _ := (get_put_ne CatalogKey.noConfusion).trans found
  owned creator m := by
    rw [Owned, Owned, get_put_ne CatalogKey.noConfusion]
    exact Or.imp_left (tombed_put_tombstone who m)
  burier m w found := by
    have burier : (s.put who (.tombstone name) body).burier = s.burier.insert name who := rfl
    by_cases same : m = name
    · subst same
      have buried := (kept.buried m).mp (Option.isSome_iff_exists.mpr ⟨w, found⟩)
      rw [Tombed, absent] at buried
      cases buried
    · rwa [burier, AList.lookup_insert_ne same]

theorem put_tombstone_kept (who : Nat) (kept : s.Kept used)
    (absent : s.get (.tombstone name) = none) (held : s.recorded name = some body) :
    (s.put who (.tombstone name) body).Kept used where
  objects := kept.objects_put (put_tombstone_later who kept absent held) (kept.of_recorded held)
  founded m := by
    rw [recorded_put_tombstone who held]
    exact kept.founded m
  buried m := by
    have burier : (s.put who (.tombstone name) body).burier = s.burier.insert name who := rfl
    by_cases same : m = name
    · subst same
      rw [burier, AList.lookup_insert, Tombed, get_put]
      exact iff_of_true rfl rfl
    · rw [burier, AList.lookup_insert_ne same, Tombed,
        get_put_ne fun same' => same (CatalogKey.tombstone.inj same')]
      exact kept.buried m

/-- Neither a topic's object nor its tombstone. -/
def Aside : CatalogKey → Prop
  | .topic _ | .tombstone _ => False
  | .id _ | .owner _ _ | .retention _ => True

theorem put_aside_kept {key : CatalogKey} (who : Nat) (kept : s.Kept used) (aside : Aside key)
    (absent : s.get key = none) (holds : s.Holds used body key) :
    (s.put who key body).Kept used ∧ Later s (s.put who key body) := by
  have others {other} (ne : other ≠ key) : (s.put who key body).get other = s.get other :=
    get_put_ne ne
  have topics (name) : (s.put who key body).get (.topic name) = s.get (.topic name) :=
    others (by rintro rfl; exact aside)
  have tombstones (name) : (s.put who key body).get (.tombstone name) = s.get (.tombstone name) :=
    others (by rintro rfl; exact aside)
  have recorded (name) : (s.put who key body).recorded name = s.recorded name := by
    rw [CatalogStore.recorded, topics, tombstones, CatalogStore.recorded]
  have founder : (s.put who key body).founder = s.founder := by
    cases key <;> first | rfl | cases aside
  have burier : (s.put who key body).burier = s.burier := by
    cases key <;> first | rfl | cases aside
  have later : Later s (s.put who key body) := by
    refine Later.of_same recorded tombstones founder burier ?_ ?_
    · intro uuid b held _
      refine (others ?_).trans held
      rintro rfl
      rw [absent] at held
      cases held
    · intro c n
      rw [Owned, Owned, Tombed, Tombed, tombstones]
      refine Or.imp_right fun held => ?_
      by_cases same : CatalogKey.owner c n = key
      · rw [same, get_put]
        rfl
      · rwa [others same]
  exact ⟨kept.of_same (kept.objects_put later holds) recorded tombstones founder burier, later⟩

theorem delete_kept {key : CatalogKey} (kept : s.Kept used) (dead : s.Dead key) :
    (s.delete key).Kept used ∧ Later s (s.delete key) := by
  have others {other} (ne : other ≠ key) : (s.delete key).get other = s.get other :=
    get_delete_ne ne
  have survives {other b} (held : (s.delete key).get other = some b) : s.get other = some b := by
    rwa [others] at held
    rintro rfl
    rw [get_delete] at held
    cases held
  have tombstones (name) : (s.delete key).get (.tombstone name) = s.get (.tombstone name) :=
    others (by rintro rfl; exact dead)
  have recorded (name) : (s.delete key).recorded name = s.recorded name := by
    by_cases same : CatalogKey.topic name = key
    · subst same
      obtain ⟨tombstone, held⟩ := Option.isSome_iff_exists.mp dead
      rw [recorded_tombed held, recorded_tombed ((tombstones name).trans held)]
    · rw [CatalogStore.recorded, tombstones, others same, CatalogStore.recorded]
  have later : Later s (s.delete key) := by
    refine Later.of_same recorded tombstones rfl rfl ?_ ?_
    · intro uuid b held apart
      refine (others ?_).trans held
      rintro rfl
      obtain ⟨name, same, hidden⟩ := dead
      exact apart name same hidden
    · intro c n
      rw [Owned, Owned, Tombed, Tombed, tombstones]
      rintro (hidden | held)
      · exact .inl hidden
      · by_cases same : CatalogKey.owner c n = key
        · subst same
          exact .inl dead
        · exact .inr (by rwa [others same])
  refine ⟨kept.of_same (fun other b held => ?_) recorded tombstones rfl rfl, later⟩
  exact Holds.later other later (kept.objects other b (survives held))

/-- A request that is served. -/
theorem answer_kept {request : CatalogRequest} (root : List UInt8) (who picked : Nat)
    (kept : s.Kept used) (sound : Sound used s request) :
    (s.answer root who picked request).1.Kept used ∧
      Later s (s.answer root who picked request).1 := by
  cases request with
  | get | list => exact ⟨kept, Later.refl s⟩
  | putAbsent key body =>
    dsimp only [answer]
    split
    · exact ⟨kept, Later.refl s⟩
    · rename_i free
      have absent : s.get key = none := Option.not_isSome_iff_eq_none.mp free
      cases key with
      | topic name =>
        exact ⟨put_topic_kept who kept absent sound, put_topic_later who kept absent⟩
      | tombstone name =>
        have held := sound.resolve_left free
        exact ⟨put_tombstone_kept who kept absent held, put_tombstone_later who kept absent held⟩
      | id | owner | retention => exact put_aside_kept who kept trivial absent sound
  | deleteOne batch =>
    dsimp only [answer]
    split
    · exact ⟨kept, Later.refl s⟩
    · rename_i key picked
      refine delete_kept kept (sound key ?_)
      unfold pick at picked
      rcases Option.or_eq_some_iff.mp picked with found | ⟨-, found⟩
      · exact List.mem_of_getElem? found
      · exact List.mem_of_mem_head? found

theorem serve_kept {request : CatalogRequest} (root : List UInt8) (who : Nat) (weather : Weather)
    (kept : s.Kept used) (sound : Sound used s request) :
    (s.serve root who request weather).1.Kept used ∧
      Later s (s.serve root who request weather).1 := by
  cases weather with
  | fine picked => exact answer_kept root who picked kept sound
  | failing error landed picked =>
    cases landed with
    | false => exact ⟨kept, Later.refl s⟩
    | true => exact answer_kept root who picked kept sound

end

theorem start_kept (used : TopicId → Prop) : ({} : CatalogStore).Kept used where
  objects _ _ held := by cases held
  founded _ := iff_of_false (by rintro ⟨⟩) (by rintro ⟨⟩)
  buried _ := iff_of_false (by rintro ⟨⟩) (by rintro ⟨⟩)

/-- A tombstone comes of a write of it. -/
theorem tombed_serve {s : CatalogStore} {name : TopicId} {request : CatalogRequest}
    {root : List UInt8} {who : Nat} {weather : Weather}
    (dead : (s.serve root who request weather).1.Tombed name) :
    s.Tombed name ∨ ∃ body, request = .putAbsent (.tombstone name) body := by
  have answered {picked : Nat} (dead : (s.answer root who picked request).1.Tombed name) :
      s.Tombed name ∨ ∃ body, request = .putAbsent (.tombstone name) body := by
    cases request with
    | get | list => exact .inl dead
    | putAbsent key body =>
      dsimp only [answer] at dead
      split at dead
      · exact .inl dead
      · by_cases same : CatalogKey.tombstone name = key
        · exact .inr ⟨body, by rw [same]⟩
        · rw [Tombed, get_put_ne same] at dead
          exact .inl dead
    | deleteOne batch =>
      dsimp only [answer] at dead
      split at dead
      · exact .inl dead
      · rename_i key _
        by_cases same : CatalogKey.tombstone name = key
        · rw [Tombed, same, get_delete] at dead
          cases dead
        · rw [Tombed, get_delete_ne same] at dead
          exact .inl dead
  cases weather with
  | fine picked => exact answered dead
  | failing error landed picked =>
    cases landed with
    | false => exact .inl dead
    | true => exact answered dead

/-- The id's object is there, but for a tombstone of that id. -/
def Published (s : CatalogStore) (name : TopicId) : Prop :=
  (∃ other, topicUuid other = topicUuid name ∧ s.Tombed other) ∨
    (s.get (.id (topicUuid name))).isSome

section
variable {s t : CatalogStore} {name : TopicId} {entry : CatalogEntry}

theorem Records.later (later : Later s t) (records : s.Records name entry) :
    t.Records name entry := by
  obtain ⟨body, held, decoded⟩ := records
  exact ⟨body, later.recorded name body held, decoded⟩

theorem Records.unique {other : CatalogEntry} (records : s.Records name entry)
    (records' : s.Records name other) : entry = other := by
  obtain ⟨body, held, decoded⟩ := records
  obtain ⟨body', held', decoded'⟩ := records'
  rw [held] at held'
  cases held'
  rw [decoded] at decoded'
  cases decoded'
  rfl

theorem records_of_live {body : List UInt8} (held : s.get (.topic name) = some body)
    (decoded : StoredCatalog.decode body = .ok entry) (live : ¬ s.Tombed name) :
    s.Records name entry :=
  ⟨body, (recorded_live live).trans held, decoded⟩

theorem Published.later (later : Later s t) (published : Published s name) : Published t name := by
  rcases published with ⟨other, same, dead⟩ | there
  · exact .inl ⟨other, same, later.tombed other dead⟩
  · obtain ⟨body, held⟩ := Option.isSome_iff_exists.mp there
    by_cases hidden : ∃ other, topicUuid other = topicUuid name ∧ t.Tombed other
    · exact .inl hidden
    · refine .inr ?_
      rw [later.ids _ body held fun other same dead => hidden ⟨other, same, dead⟩]
      rfl

end

end CatalogStore

end Oqueue.Broker
