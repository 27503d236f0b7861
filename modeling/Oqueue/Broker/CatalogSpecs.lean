import Oqueue.Broker.CatalogRely

/-!
# What the catalog's calls end with

Each call keeps to what the others rely on, wherever they leave the store between its
requests, and what it returns was so at some moment while it ran.
-/

namespace Oqueue.Broker

open Segment Bytes Asks

namespace CatalogCall

open CatalogStore

/-- The store as the calls share it; `allowed` are the ways that a request may go. -/
def shared (root : List UInt8) (used : TopicId → Prop)
    (allowed : CatalogStore → CatalogRequest → Weather → Prop) :
    Resource Nat CatalogStore Weather CatalogRequest CatalogRequest.Answer where
  serve who s request weather := s.serve root who request weather
  allows _ s request weather := allowed s request weather
  inv := Kept used
  later := Later
  refl := Later.refl
  trans := Later.trans

def Faulty (allowed : CatalogStore → CatalogRequest → Weather → Prop) : Prop :=
  ∃ s request error landed picked, allowed s request (.failing error landed picked)

def Collides (used : TopicId → Prop) (name : TopicId) : Prop :=
  ∃ other, used other ∧ other ≠ name ∧ topicUuid other = topicUuid name

/-- Some moment from one state to another. -/
def Between (used : TopicId → Prop) (s t : CatalogStore) (holds : CatalogStore → Prop) : Prop :=
  ∃ m, Later s m ∧ m.Kept used ∧ holds m ∧ Later m t

section
variable {used : TopicId → Prop} {s t u : CatalogStore}

theorem Between.mono {holds other : CatalogStore → Prop} (between : Between used s t holds)
    (implies : ∀ m, Later s m → m.Kept used → Later m t → holds m → other m) :
    Between used s t other := by
  obtain ⟨m, first, kept, held, second⟩ := between
  exact ⟨m, first, kept, implies m first kept second held, second⟩

theorem Between.widen {w : CatalogStore} {holds : CatalogStore → Prop}
    (between : Between used t u holds) (before : Later s t) (after : Later u w) :
    Between used s w holds := by
  obtain ⟨m, first, kept, held, second⟩ := between
  exact ⟨m, before.trans first, kept, held, second.trans after⟩

end

section
variable {root : List UInt8} {used : TopicId → Prop}
  {allowed : CatalogStore → CatalogRequest → Weather → Prop} {who : Nat} {s : CatalogStore}
  {error : CatalogStore → Error → Prop} {name : TopicId}

theorem asks_ends {request : CatalogRequest} {ok : CatalogStore → request.Value → Prop}
    (sound : Sound used s request)
    (told : ∀ t, Later s t → t.Kept used → ∀ picked, allowed t request (.fine picked) →
      ∀ u, Later (t.answer root who picked request).1 u → u.Kept used →
        Tells (ok u) (error u) (t.answer root who picked request).2)
    (faulty : Faulty allowed → ∀ t e, error t e) :
    Ends (shared root used allowed) who ok error (asks request) s := by
  apply Meets.request
  intro t later kept weather
  obtain ⟨kept', moved⟩ := serve_kept root who weather kept (sound.later later)
  refine ⟨kept', moved, fun permitted u further held => ?_⟩
  cases weather with
  | fine picked => exact told t later kept picked permitted u further held
  | failing e landed picked => exact faulty ⟨t, request, e, landed, picked, permitted⟩ u e

theorem result_ends {α : Type} {result : Except Error α}
    (anyway : ∀ t e, error t e) :
    Ends (shared root used allowed) who (fun _ a => result = .ok a) error
      (MonadExcept.ofExcept result) s :=
  Ends.ofExcept (fun _ _ made _ _ => made) fun t e _ _ _ => anyway t e

variable (faulty : Faulty allowed → ∀ t e, error t e)
include faulty

theorem read_ends (key : CatalogKey) :
    Ends (shared root used allowed) who (fun t body => Between used s t fun m => m.get key = body)
      error (read key) s :=
  asks_ends trivial (fun t later kept _ _ _ further _ => ⟨t, later, kept, rfl, further⟩) faulty

theorem putAbsent_ends {key : CatalogKey} {body : List UInt8}
    (sound : Sound used s (.putAbsent key body)) :
    Ends (shared root used allowed) who
      (fun t won => ∃ m picked, Later s m ∧ m.Kept used ∧
        allowed m (.putAbsent key body) (.fine picked) ∧
        if won then m.get key = none ∧ Later (m.put who key body) t
        else (m.get key).isSome ∧ Later m t)
      error (putAbsent key body) s := by
  refine asks_ends sound (fun t later kept picked permitted u further held => ?_) faulty
  by_cases there : (t.get key).isSome
  · have lost : t.answer root who picked (.putAbsent key body) = (t, .ok false) := if_pos there
    rw [lost] at further ⊢
    exact ⟨t, picked, later, kept, permitted, there, further⟩
  · have won : t.answer root who picked (.putAbsent key body) = (t.put who key body, .ok true) :=
      if_neg there
    rw [won] at further ⊢
    exact ⟨t, picked, later, kept, permitted, Option.not_isSome_iff_eq_none.mp there, further⟩

omit faulty in
theorem there_of_put {key : CatalogKey} {body : List UInt8} {won : Bool} {m t : CatalogStore}
    (put : if won then m.get key = none ∧ Later (m.put who key body) t
      else (m.get key).isSome ∧ Later m t) :
    ∃ n, (n.get key).isSome ∧ Later n t := by
  cases won with
  | true =>
    refine ⟨_, ?_, put.2⟩
    rw [get_put]
    rfl
  | false => exact ⟨m, put⟩

omit faulty in
theorem decode_ends {ok : CatalogStore → Option CatalogEntry → Prop} {body : List UInt8}
    {entry : CatalogEntry} (at_ : Nat) (decoded : StoredCatalog.decode body = .ok entry)
    (named : entry.name = name) (holds : ∀ t, Later s t → t.Kept used → ok t (some entry)) :
    Ends (shared root used allowed) who ok error (do
      let entry ← MonadExcept.ofExcept (StoredCatalog.decode body)
      if entry.name ≠ name then throw (.malformedMetadataSegment at_)
      else return some entry) s := by
  rw [decoded]
  change Ends _ who ok error (if entry.name ≠ name then _ else pure (some entry)) s
  rw [if_neg (not_not_intro named)]
  exact Ends.pure holds

theorem tombstoneEntry_ends (kept : s.Kept used) :
    Ends (shared root used allowed) who
      (fun t found => match found with
        | none => Between used s t fun m => ¬ m.Tombed name
        | some entry => entry.name = name ∧ t.Tombed name ∧ t.Records name entry)
      error (tombstoneEntry name) s := by
  refine Ends.bind kept (read_ends faulty _) fun t body _ _ seen => ?_
  obtain ⟨m, first, held, there, second⟩ := seen
  cases body with
  | none =>
    exact Ends.pure fun u later _ => ⟨m, first, held, live_of_none there, second.trans later⟩
  | some body =>
    obtain ⟨-, entry, decoded, named⟩ := held.entries name body (.inl there)
    refine decode_ends 0 decoded named fun u later _ => ⟨named, ?_, ?_⟩
    · exact (second.trans later).tombed name (Option.isSome_iff_exists.mpr ⟨body, there⟩)
    · exact Records.later (second.trans later) ⟨body, recorded_tombed there, decoded⟩

theorem tombstoneId_ends (kept : s.Kept used) :
    Ends (shared root used allowed) who
      (fun t found => if found.isSome then t.Tombed name
        else Between used s t fun m => ¬ m.Tombed name)
      error (tombstoneId name) s := by
  refine Ends.bind kept (tombstoneEntry_ends faulty kept) fun t found _ _ this => ?_
  cases found with
  | none => exact Ends.pure fun u later _ => this.widen (Later.refl s) later
  | some entry => exact Ends.pure fun u later _ => later.tombed name this.2.1

theorem findEntry_ends (kept : s.Kept used) :
    Ends (shared root used allowed) who
      (fun t found => match found with
        | none => Between used s t fun m => m.get (.topic name) = none
        | some entry => entry.name = name ∧ ∃ body, StoredCatalog.decode body = .ok entry ∧
          Between used s t fun m => m.get (.topic name) = some body)
      error (findEntry name) s := by
  refine Ends.bind kept (read_ends faulty _) fun t body _ _ seen => ?_
  cases body with
  | none => exact Ends.pure fun u later _ => seen.widen (Later.refl s) later
  | some body =>
    obtain ⟨m, first, held, there, second⟩ := seen
    obtain ⟨-, entry, decoded, named⟩ := held.entries name body (.inr there)
    refine decode_ends 5 decoded named fun u later _ => ⟨named, body, decoded, ?_⟩
    exact ⟨m, first, held, there, second.trans later⟩

omit faulty in
theorem records_of_read {t u : CatalogStore} {body : List UInt8} {entry : CatalogEntry}
    (decoded : StoredCatalog.decode body = .ok entry)
    (read : Between used s t fun m => m.get (.topic name) = some body)
    (looked : Between used t u fun m => ¬ m.Tombed name) :
    u.Records name entry ∧ ¬ s.Tombed name := by
  obtain ⟨m, first, _, there, second⟩ := read
  obtain ⟨n, third, _, live, fourth⟩ := looked
  have path := second.trans third
  refine ⟨?_, fun dead => live ((first.trans path).tombed name dead)⟩
  exact Records.later (path.trans fourth)
    (records_of_live there decoded fun dead => live (path.tombed name dead))

/-- What hides a name from a lookup. -/
def Missing (name : TopicId) (m : CatalogStore) : Prop :=
  m.Tombed name ∨ m.get (.topic name) = none ∨ m.get (.id (topicUuid name)) = none

theorem find_ends (kept : s.Kept used) (collides : Collides used name → ∀ t e, error t e) :
    Ends (shared root used allowed) who
      (fun t found => match found with
        | none => Between used s t (Missing name)
        | some entry => entry.name = name ∧ t.Records name entry ∧ ¬ s.Tombed name)
      error (find name) s := by
  refine Ends.bind kept (tombstoneId_ends faulty kept) fun t found before keptT this => ?_
  split
  · rename_i hidden
    rw [if_pos hidden] at this
    exact Ends.pure fun u later _ => ⟨t, before, keptT, .inl this, later⟩
  · refine Ends.bind keptT (findEntry_ends faulty keptT) fun u found first keptU this => ?_
    cases found with
    | none =>
      exact Ends.pure fun v later _ =>
        (this.mono fun m _ _ _ absent => .inr (.inl absent)).widen before later
    | some entry =>
      obtain ⟨named, body, decoded, read⟩ := this
      have same : entry.id = topicUuid name := congrArg topicUuid named
      refine Ends.bind keptU (read_ends faulty _) fun v bytes second keptV seen => ?_
      cases bytes with
      | none =>
        refine Ends.pure fun w later _ => Between.widen ?_ (before.trans first) later
        rw [same] at seen
        exact seen.mono fun m _ _ _ absent => .inr (.inr absent)
      | some bytes =>
        dsimp only
        split
        · rename_i differs
          refine Ends.throw fun w _ _ => collides ?_ w _
          obtain ⟨m, _, held, there, _⟩ := seen
          obtain ⟨other, usedOther, id, rfl⟩ := held.ids _ _ there
          exact ⟨other, usedOther, fun eq => differs (eq ▸ rfl), id.trans same⟩
        · refine Ends.bind keptV (tombstoneId_ends faulty keptV) fun w found third keptW this => ?_
          split
          · rename_i hidden
            rw [if_pos hidden] at this
            exact Ends.pure fun x later _ =>
              ⟨w, before.trans (first.trans (second.trans third)), keptW, .inl this, later⟩
          · rename_i shown
            rw [if_neg shown] at this
            refine Ends.pure fun x later _ => ⟨named, ?_⟩
            obtain ⟨records, live⟩ := records_of_read decoded read (this.widen second later)
            exact ⟨records, fun dead => live (before.tombed name dead)⟩

omit faulty in
theorem nameUnder_utf8 {other : TopicId} (typed : other.Typed) :
    nameUnder (utf8 other.name) = some other := by
  have made := (StoredCatalog.makes_topic other.name other).mpr ⟨rfl, typed⟩
  have text := fromUTF8?_eq_some.mpr (rfl : utf8 other.name = utf8 other.name)
  simp only [nameUnder, Option.bind_eq_bind]
  rw [text, Option.bind_some, made]
  rfl

/-- A lookup by id, and what hid the topic if it found none. -/
theorem findId_ends (typed : ∀ name, used name → name.Typed) {id : BitVec 128}
    (kept : s.Kept used)
    (collides : ∀ name, used name → topicUuid name = id → Collides used name → ∀ t e, error t e) :
    Ends (shared root used allowed) who
      (fun t found => match found with
        | none => (Between used s t fun m => m.get (.id id) = none) ∨
          ∃ name, used name ∧ topicUuid name = id ∧ Between used s t (Missing name)
        | some entry => entry.id = id ∧ t.Records entry.name entry ∧ ¬ s.Tombed entry.name)
      error (findId id) s := by
  refine Ends.bind kept (read_ends faulty _) fun t bytes before keptT seen => ?_
  cases bytes with
  | none => exact Ends.pure fun u later _ => .inl (seen.widen (Later.refl s) later)
  | some bytes =>
    obtain ⟨m, _, held, there, _⟩ := seen
    obtain ⟨name, isUsed, same, rfl⟩ := held.ids _ _ there
    dsimp only
    rw [nameUnder_utf8 (typed name isUsed)]
    refine Ends.bind keptT (find_ends faulty keptT (collides name isUsed same))
      fun u found first _ this => ?_
    cases found with
    | none =>
      exact Ends.pure fun v later _ => .inr ⟨name, isUsed, same, this.widen before later⟩
    | some entry =>
      obtain ⟨rfl, records, live⟩ := this
      have own : entry.id = id := same
      refine Ends.pure fun v later _ => ?_
      rw [Option.filter_some, decide_eq_true own, if_pos rfl]
      exact ⟨own, records.later later, fun dead => live (before.tombed _ dead)⟩

omit faulty in
theorem deleteAll_ends (anyway : ∀ t e, error t e) (left : Nat) {batch : List CatalogKey}
    (kept : s.Kept used) (dead : ∀ key ∈ batch, s.Dead key) :
    Ends (shared root used allowed) who (fun _ _ => True) error (deleteAll left batch) s := by
  induction left generalizing s batch with
  | zero => exact Ends.pure fun _ _ _ => trivial
  | succ left ih =>
    have goes : Ends (shared root used allowed) who (fun _ _ => True) error
        (deleteOne batch) s := by
      refine asks_ends dead (fun t _ _ picked _ u _ _ => ?_) fun _ => anyway
      cases (t.answer root who picked (.deleteOne batch)).2 with
      | ok => trivial
      | error e => exact anyway u e
    refine Ends.bind kept goes fun t gone later keptT _ => ih keptT fun key among => ?_
    exact (dead key (List.mem_of_mem_erase among)).later later

omit faulty in
theorem deleteLiveIndexes_ends (anyway : ∀ t e, error t e) {entry : CatalogEntry}
    (kept : s.Kept used) (hidden : s.Tombed entry.name) :
    Ends (shared root used allowed) who (fun _ _ => True) error (deleteLiveIndexes entry) s := by
  refine deleteAll_ends anyway _ kept fun key among => ?_
  rcases List.mem_append.mp among with fixed | owned
  · simp only [List.mem_cons, List.not_mem_nil, or_false] at fixed
    rcases fixed with rfl | rfl | rfl
    · exact hidden
    · exact ⟨entry.name, rfl, hidden⟩
    · trivial
  · obtain ⟨creator, _, rfl⟩ := List.mem_map.mp owned
    exact hidden

omit faulty in
theorem rejectIfTombstoned_ends (anyway : ∀ t e, error t e) {entry : CatalogEntry}
    (kept : s.Kept used) :
    Ends (shared root used allowed) who
      (fun t _ => Between used s t fun m => ¬ m.Tombed entry.name) error
      (rejectIfTombstoned entry) s := by
  refine Ends.bind kept (tombstoneId_ends (fun _ => anyway) kept)
    fun t found before keptT this => ?_
  split
  · rename_i hidden
    rw [if_pos hidden] at this
    exact Ends.bind keptT (deleteLiveIndexes_ends anyway keptT this) fun u _ _ _ _ =>
      Ends.throw fun v _ _ => anyway v _
  · rename_i shown
    rw [if_neg shown] at this
    exact Ends.pure fun u later _ => this.widen (Later.refl s) later

omit faulty in
theorem published_of_there {t : CatalogStore}
    (there : ∃ m, (m.get (.id (topicUuid name))).isSome ∧ Later m t) : Published t name := by
  obtain ⟨m, there, later⟩ := there
  exact Published.later later (.inr there)

/-- What a name is found to be by a call that began at `s`. -/
def Settles (name : TopicId) (s t : CatalogStore) (entry : CatalogEntry) : Prop :=
  entry.name = name ∧ t.Records name entry ∧ Published t name ∧ ¬ s.Tombed name

omit faulty in
theorem Settles.later {r t u : CatalogStore} {entry : CatalogEntry}
    (settles : Settles name s t entry) (before : Later r s) (later : Later t u) :
    Settles name r u entry := by
  obtain ⟨named, records, published, live⟩ := settles
  exact ⟨named, records.later later, published.later later, fun dead =>
    live (before.tombed name dead)⟩

omit faulty in
theorem lookAgain_ends (anyway : ∀ t e, error t e) (isUsed : used name) (left : Nat)
    (kept : s.Kept used) :
    Ends (shared root used allowed) who (Settles name s) error (lookAgain name left) s := by
  have faulty : Faulty allowed → ∀ t e, error t e := fun _ => anyway
  induction left generalizing s with
  | zero => exact Ends.throw fun t _ _ => anyway t _
  | succ left ih =>
    refine Ends.bind kept (tombstoneId_ends faulty kept) fun t found before keptT this => ?_
    split
    · exact Ends.throw fun u _ _ => anyway u _
    · refine Ends.bind keptT (findEntry_ends faulty keptT) fun u found first keptU this => ?_
      have again {v} (later : Later u v) (keptV : v.Kept used) :
          Ends (shared root used allowed) who (Settles name s) error (lookAgain name left) v :=
        Ends.mono (ih keptV) (fun w entry _ _ settles =>
          settles.later (before.trans (first.trans later)) (Later.refl w))
          fun w e _ _ _ => anyway w e
      cases found with
      | none => exact again (Later.refl u) keptU
      | some entry =>
        obtain ⟨named, body, decoded, read⟩ := this
        have same : entry.id = topicUuid name := congrArg topicUuid named
        have sound : Sound used u (.putAbsent (.id entry.id) (utf8 name.name)) :=
          ⟨name, isUsed, same.symm, rfl⟩
        refine Ends.bind keptU (putAbsent_ends faulty sound) fun v won second keptV put => ?_
        refine Ends.bind keptV (find_ends faulty keptV fun _ => anyway)
          fun w found third keptW this => ?_
        split
        · refine Ends.pure fun x later _ => ⟨named, ?_⟩
          cases found with
          | none => contradiction
          | some other =>
            obtain ⟨m, _, _, _, _, put⟩ := put
            obtain ⟨-, -, live⟩ := this
            obtain ⟨records, live⟩ := records_of_read decoded read
              ⟨v, second, keptV, live, third.trans later⟩
            refine ⟨records, ?_, fun dead => live (before.tombed name dead)⟩
            rw [same] at put
            exact (published_of_there (there_of_put put)).later (third.trans later)
        · exact again (second.trans third) keptW

omit faulty in
theorem findAfterRace_ends (anyway : ∀ t e, error t e) (isUsed : used name) (kept : s.Kept used) :
    Ends (shared root used allowed) who (Settles name s) error (findAfterRace name) s := by
  refine Ends.bind kept (tombstoneId_ends (fun _ => anyway) kept)
    fun t found before keptT this => ?_
  split
  · exact Ends.throw fun u _ _ => anyway u _
  · exact Ends.mono (lookAgain_ends anyway isUsed _ keptT)
      (fun u entry _ _ settles => settles.later before (Later.refl u)) fun u e _ _ _ => anyway u e

omit faulty in
theorem founded_of_put {m n t : CatalogStore} {body : List UInt8} {entry : CatalogEntry}
    (decoded : StoredCatalog.decode body = .ok entry)
    (later : Later (m.put who (.topic name) body) n) (live : ¬ n.Tombed name) (after : Later n t) :
    t.founder.lookup name = some who ∧ t.Records name entry := by
  have unhidden : ¬ (m.put who (.topic name) body).Tombed name := fun dead =>
    live (later.tombed name dead)
  have before : ¬ m.Tombed name := fun dead => unhidden (tombed_put_topic.mpr dead)
  constructor
  · apply (later.trans after).founder
    rw [founder_put_live before, AList.lookup_insert]
  · exact Records.later (later.trans after) (records_of_live get_put decoded unhidden)

omit faulty in
/-- What is left to do for an entry whose write won. -/
theorem publish_ends {α : Type} (anyway : ∀ t e, error t e) {m t : CatalogStore} {body : List UInt8}
    {entry : CatalogEntry} {a : α} (isUsed : used name) (named : entry.name = name)
    (decoded : StoredCatalog.decode body = .ok entry)
    (kept : t.Kept used) (first : Later s m) (keptM : m.Kept used)
    (absent : m.get (.topic name) = none)
    (second : Later (m.put who (.topic name) body) t) :
    Ends (shared root used allowed) who
      (fun u b => b = a ∧ Settles name s u entry ∧ u.founder.lookup name = some who) error
      (do
        let _ ← putAbsent (.id entry.id) (utf8 name.name)
        rejectIfTombstoned entry
        return a) t := by
  have moved : Later m t :=
    (put_topic_later who keptM absent).trans second
  have same : entry.id = topicUuid name := congrArg topicUuid named
  have sound : Sound used t (.putAbsent (.id entry.id) (utf8 name.name)) :=
    ⟨name, isUsed, same.symm, rfl⟩
  refine Ends.bind kept (putAbsent_ends (fun _ => anyway) sound) fun u won third keptU put => ?_
  refine Ends.bind keptU (rejectIfTombstoned_ends anyway keptU) fun v _ _ _ looked => ?_
  obtain ⟨n, fourth, _, live, fifth⟩ := looked
  rw [named] at live
  refine Ends.pure fun w later _ => ⟨rfl, ?_⟩
  obtain ⟨founder, records⟩ :=
    founded_of_put decoded (second.trans (third.trans fourth)) live (fifth.trans later)
  refine ⟨⟨named, records, ?_, fun dead => live ?_⟩, founder⟩
  · obtain ⟨m, _, _, _, _, put⟩ := put
    rw [same] at put
    exact (published_of_there (there_of_put put)).later (fourth.trans (fifth.trans later))
  · exact (first.trans (moved.trans (third.trans fourth))).tombed name dead

/-- An unowned topic is only put where there is none, or the store fails it. -/
def Clear (allowed : CatalogStore → CatalogRequest → Weather → Prop) : Prop :=
  ∀ s name body entry picked, allowed s (.putAbsent (.topic name) body) (.fine picked) →
    StoredCatalog.decode body = .ok entry → entry.creator = none → s.get (.topic name) = none

omit faulty in
theorem insertWithKeyDomain_ends (anyway : ∀ t e, error t e) {partitions : Nat}
    (keyDomain : KeyDomain) (isUsed : used name) (typed : name.Typed)
    (few : partitions < 2 ^ 32) (kept : s.Kept used) :
    Ends (shared root used allowed) who
      (fun t entry => Settles name s t entry ∧
        (Clear allowed → t.founder.lookup name = some who ∧
          entry = { name, partitions, keyDomain }))
      error (insertWithKeyDomain name partitions keyDomain) s := by
  refine Ends.bind kept (tombstoneId_ends (fun _ => anyway) kept) fun t found before keptT _ => ?_
  split
  · exact Ends.throw fun u _ _ => anyway u _
  · refine Ends.bind keptT (result_ends anyway) fun u body first keptU made => ?_
    obtain ⟨fits, rfl⟩ := StoredCatalog.encode_eq_ok.mp made
    have decoded := StoredCatalog.decode_eq_ok.mpr ⟨⟨typed, few, by rintro _ ⟨⟩⟩, fits, rfl⟩
    have sound : Sound used u (.putAbsent (.topic name) _) :=
      ⟨isUsed, _, decoded, rfl, by rintro _ ⟨⟩⟩
    refine Ends.bind keptU (putAbsent_ends (fun _ => anyway) sound) fun v won second keptV put => ?_
    obtain ⟨m, picked, third, keptM, permitted, put⟩ := put
    cases won with
    | true =>
      refine Ends.mono (publish_ends anyway isUsed rfl decoded keptV
        (before.trans (first.trans third)) keptM put.1 put.2) (fun w a _ _ this => ?_)
        fun w e _ _ _ => anyway w e
      obtain ⟨rfl, settles, founder⟩ := this
      exact ⟨settles, fun _ => ⟨founder, rfl⟩⟩
    | false =>
      refine Ends.mono (findAfterRace_ends anyway isUsed keptV) (fun w a _ _ settles => ?_)
        fun w e _ _ _ => anyway w e
      refine ⟨settles.later (before.trans (first.trans second)) (Later.refl w), fun clear => ?_⟩
      have absent := clear m name _ _ picked permitted decoded rfl
      rw [absent] at put
      cases put.1

omit faulty in
theorem insertOwned_ends (anyway : ∀ t e, error t e) {partitions : Nat} {creator : Principal}
    (isUsed : used name) (typed : name.Typed) (few : partitions < 2 ^ 32)
    (owned : creator.isEmpty = false) (kept : s.Kept used) :
    Ends (shared root used allowed) who
      (fun t outcome => Settles name s t outcome.1 ∧
        (outcome.2 = true → t.founder.lookup name = some who ∧
          outcome.1 = { name, partitions, creator := some creator }))
      error (insertOwned name partitions creator) s := by
  refine Ends.bind kept (tombstoneId_ends (fun _ => anyway) kept) fun t found before keptT _ => ?_
  split
  · exact Ends.throw fun u _ _ => anyway u _
  · refine Ends.bind keptT (result_ends anyway) fun u body first keptU made => ?_
    obtain ⟨fits, rfl⟩ := StoredCatalog.encode_eq_ok.mp made
    have decoded := StoredCatalog.decode_eq_ok.mpr
      ⟨⟨typed, few, by rintro _ ⟨⟩; exact owned⟩, fits, rfl⟩
    have soundOwner : Sound used u (.putAbsent (.owner creator name) []) := isUsed
    refine Ends.bind keptU (putAbsent_ends (fun _ => anyway) soundOwner)
      fun v _ second keptV put => ?_
    -- the owner's key is there before the topic's
    have there : v.Owned creator name := by
      obtain ⟨_, _, _, _, _, put⟩ := put
      obtain ⟨n, there, later⟩ := there_of_put put
      exact later.owned creator name (.inr there)
    have sound : Sound used v (.putAbsent (.topic name) _) :=
      ⟨isUsed, _, decoded, rfl, by rintro _ ⟨⟩; exact there⟩
    refine Ends.bind keptV (putAbsent_ends (fun _ => anyway) sound) fun w won third keptW put => ?_
    obtain ⟨m, _, fourth, keptM, _, put⟩ := put
    cases won with
    | true =>
      refine Ends.mono (publish_ends anyway isUsed rfl decoded keptW
        (before.trans (first.trans (second.trans fourth))) keptM put.1 put.2)
        (fun x a _ _ this => ?_) fun x e _ _ _ => anyway x e
      obtain ⟨rfl, settles, founder⟩ := this
      exact ⟨settles, fun _ => ⟨founder, rfl⟩⟩
    | false =>
      refine Ends.bind keptW (findAfterRace_ends anyway isUsed keptW)
        fun x entry last _ settles => ?_
      refine Ends.pure fun y later _ => ⟨?_, nofun⟩
      exact settles.later (before.trans (first.trans (second.trans third))) later

omit faulty in
theorem deleteBuried_ends (anyway : ∀ t e, error t e) {tombstone : CatalogEntry}
    (expectedId : Option (BitVec 128)) (kept : s.Kept used) (hidden : s.Tombed tombstone.name) :
    Ends (shared root used allowed) who (fun _ outcome => ∀ entry, outcome ≠ .deleted entry) error
      (deleteBuried tombstone expectedId) s := by
  unfold deleteBuried
  split
  · exact Ends.pure fun _ _ _ => nofun
  · exact Ends.bind kept (deleteLiveIndexes_ends anyway kept hidden) fun _ _ _ _ _ =>
      Ends.pure fun _ _ _ => nofun

omit faulty in
/-- Whoever is told that it deleted the topic put its tombstone. -/
theorem deleteTopic_ends (anyway : ∀ t e, error t e) (expectedId : Option (BitVec 128))
    (kept : s.Kept used) :
    Ends (shared root used allowed) who
      (fun t outcome => ∀ entry, outcome = .deleted entry →
        t.burier.lookup name = some who ∧ t.Tombed name ∧ t.Records name entry)
      error (deleteTopic name expectedId) s := by
  have buried {t tombstone} (keptT : t.Kept used) (named : tombstone.name = name)
      (hidden : t.Tombed name) : Ends (shared root used allowed) who
      (fun t outcome => ∀ entry, outcome = .deleted entry →
        t.burier.lookup name = some who ∧ t.Tombed name ∧ t.Records name entry)
      error (deleteBuried tombstone expectedId) t :=
    Ends.mono (deleteBuried_ends anyway expectedId keptT (named ▸ hidden))
      (fun _ _ _ _ other entry same => absurd same (other entry)) fun u e _ _ _ => anyway u e
  refine Ends.bind kept (tombstoneEntry_ends (fun _ => anyway) kept) fun t found _ keptT this => ?_
  cases found with
  | some tombstone => exact buried keptT this.1 this.2.1
  | none =>
    refine Ends.bind keptT (findEntry_ends (fun _ => anyway) keptT) fun u found _ keptU this => ?_
    cases found with
    | none => exact Ends.pure fun _ _ _ => nofun
    | some entry =>
      obtain ⟨named, body, decoded, m, first, keptM, there, second⟩ := this
      dsimp only
      split
      · exact Ends.pure fun _ _ _ => nofun
      · refine Ends.bind keptU (result_ends anyway) fun v again third keptV encoded => ?_
        -- what was read is encoded as it was
        obtain rfl : again = body := by
          rw [StoredCatalog.encode_eq_ok.mpr (StoredCatalog.decode_eq_ok.mp decoded).2] at encoded
          exact (Except.ok.inj encoded).symm
        have sound : Sound used v (.putAbsent (.tombstone name) again) := by
          by_cases hidden : m.Tombed name
          · exact .inl ((second.trans third).tombed name hidden)
          · exact .inr ((second.trans third).recorded name _ ((recorded_live hidden).trans there))
        refine Ends.bind keptV (putAbsent_ends (fun _ => anyway) sound) fun v won _ keptV put => ?_
        obtain ⟨n, _, _, _, _, put⟩ := put
        cases won with
        | true =>
          obtain ⟨absent, fourth⟩ := put
          have tombstone : v.Tombed name :=
            fourth.tombed name (Option.isSome_iff_exists.mpr ⟨_, get_put⟩)
          refine Ends.bind keptV (deleteLiveIndexes_ends anyway keptV (named ▸ tombstone))
            fun w _ fifth _ _ => Ends.pure fun x sixth _ => ?_
          rintro _ ⟨⟩
          have later := fourth.trans (fifth.trans sixth)
          refine ⟨later.burier name who (AList.lookup_insert _), ?_, ?_⟩
          · exact (fifth.trans sixth).tombed name tombstone
          · exact Records.later later ⟨_, recorded_tombed get_put, decoded⟩
        | false =>
          refine Ends.bind keptV (tombstoneEntry_ends (fun _ => anyway) keptV)
            fun w found _ keptW this => ?_
          cases found with
          | none => exact Ends.throw fun x _ _ => anyway x _
          | some tombstone => exact buried keptW this.1 this.2.1

end

section
variable {root : List UInt8} {used : TopicId → Prop}
  {allowed : CatalogStore → CatalogRequest → Weather → Prop} {who : Nat} {s : CatalogStore}
  {error : CatalogStore → Error → Prop} {holds : CatalogStore → TopicId → Prop}
  {see : List UInt8 → CatalogCall (Option TopicId)}
  (lasts : ∀ t u name, Later t u → holds t name → holds u name)
  (sees : ∀ t key, Later s t → t.Kept used →
    Ends (shared root used allowed) who (fun u found => ∀ name, found = some name → holds u name)
      error (see key) t)
include lasts sees

theorem collect_ends (limit : Nat) (keys : List (List UInt8)) {names : List TopicId}
    (kept : s.Kept used) (held : ∀ name ∈ names, holds s name) :
    Ends (shared root used allowed) who (fun t names => ∀ name ∈ names, holds t name) error
      (collect see limit keys names) s := by
  induction keys generalizing s names with
  | nil => exact Ends.pure fun t later _ name among => lasts s t name later (held name among)
  | cons key keys ih =>
    refine Ends.bind kept (sees s key (Later.refl s) kept) fun t found before keptT this => ?_
    have further (u key) (later : Later t u) := sees u key (before.trans later)
    have still : ∀ name ∈ names, holds t name := fun name among =>
      lasts s t name before (held name among)
    cases found with
    | none => exact ih further keptT still
    | some found =>
      have more : ∀ name ∈ names ++ [found], holds t name := by
        intro name among
        rcases List.mem_append.mp among with old | new
        · exact still name old
        · exact List.mem_singleton.mp new ▸ this found rfl
      dsimp only
      split
      · exact Ends.pure fun u later _ name among => lasts t u name later (more name among)
      · exact ih further keptT more

theorem walk_ends (faulty : Faulty allowed → ∀ t e, error t e) (stem : List UInt8)
    (stopsShort : Bool) (limit fuel : Nat) (cursor : Option (List UInt8)) {names : List TopicId}
    (kept : s.Kept used) (held : ∀ name ∈ names, holds s name) :
    Ends (shared root used allowed) who
      (fun t names => ∀ found, names = some found → ∀ name ∈ found, holds t name) error
      (walk stem see stopsShort limit fuel cursor names) s := by
  have done {t} {more : List TopicId} (held : ∀ name ∈ more, holds t name) :
      Ends (shared root used allowed) who
      (fun t names => ∀ found, names = some found → ∀ name ∈ found, holds t name) error
      (return some more) t := by
    refine Ends.pure fun u later _ => ?_
    rintro _ ⟨⟩ name among
    exact lasts t u name later (held name among)
  induction fuel generalizing s cursor names with
  | zero => exact Ends.pure fun _ _ _ => nofun
  | succ fuel ih =>
    unfold walk
    split
    · have lists : Ends (shared root used allowed) who (fun _ _ => True) error
          (keysUnder stem cursor (limit - names.length)) s :=
        asks_ends trivial (fun _ _ _ _ _ _ _ _ => trivial) faulty
      refine Ends.bind kept lists fun t keys before keptT _ => ?_
      have further (u key) (later : Later t u) := sees u key (before.trans later)
      have still : ∀ name ∈ names, holds t name := fun name among =>
        lasts s t name before (held name among)
      split
      · exact done still
      · refine Ends.bind keptT (collect_ends lasts further limit keys keptT still)
          fun u more first keptU more_held => ?_
        split
        · exact done more_held
        · split
          · exact done more_held
          · exact ih (fun v key later => further v key (first.trans later)) _ keptU more_held
    · exact done held

end

section
variable {root : List UInt8} {used : TopicId → Prop}
  {allowed : CatalogStore → CatalogRequest → Weather → Prop} {who : Nat} {s : CatalogStore}
  {error : CatalogStore → Error → Prop}

def Seen (s t : CatalogStore) (name : TopicId) : Prop :=
  (∃ entry, t.Records name entry) ∧ ¬ s.Tombed name

theorem Seen.later {t u : CatalogStore} {name : TopicId} (seen : Seen s t name)
    (later : Later t u) : Seen s u name := by
  obtain ⟨⟨entry, records⟩, live⟩ := seen
  exact ⟨⟨entry, records.later later⟩, live⟩

theorem seeTopic_ends (anyway : ∀ t e, error t e) (stem key : List UInt8) (kept : s.Kept used) :
    Ends (shared root used allowed) who
      (fun t found => ∀ name, found = some name → Seen s t name) error (seeTopic stem key) s := by
  unfold seeTopic
  split
  · exact Ends.throw fun t _ _ => anyway t _
  · rename_i name _
    refine Ends.bind kept (find_ends (fun _ => anyway) kept fun _ => anyway)
      fun t found _ _ this => ?_
    refine Ends.pure fun u later _ other same => ?_
    obtain ⟨entry, rfl, rfl⟩ := Option.map_eq_some_iff.mp same
    exact Seen.later ⟨⟨entry, this.2.1⟩, this.2.2⟩ later

theorem page_ends (anyway : ∀ t e, error t e) (fuel : Nat) (after : Option TopicId) (limit : Nat)
    (kept : s.Kept used) :
    Ends (shared root used allowed) who
      (fun t names => ∀ found, names = some found → ∀ name ∈ found, Seen s t name) error
      (page root fuel after limit) s := by
  refine walk_ends (fun _ _ _ later seen => seen.later later) (fun t key before keptT => ?_)
    (fun _ => anyway) _ _ _ _ _ kept nofun
  refine Ends.mono (seeTopic_ends anyway _ key keptT) (fun u found _ _ this name same => ?_)
    fun u e _ _ _ => anyway u e
  obtain ⟨records, live⟩ := this name same
  exact ⟨records, fun dead => live (before.tombed name dead)⟩

def Owns (s : CatalogStore) (creator : Principal) (t : CatalogStore) (name : TopicId) : Prop :=
  (∃ entry, t.Records name entry ∧ entry.creator = some creator) ∧ ¬ s.Tombed name

theorem Owns.later {creator : Principal} {t u : CatalogStore} {name : TopicId}
    (owns : Owns s creator t name) (later : Later t u) : Owns s creator u name := by
  obtain ⟨⟨entry, records, owned⟩, live⟩ := owns
  exact ⟨⟨entry, records.later later, owned⟩, live⟩

theorem seeOwned_ends (anyway : ∀ t e, error t e) (creator : Principal) (stem key : List UInt8)
    (kept : s.Kept used) :
    Ends (shared root used allowed) who
      (fun t found => ∀ name, found = some name → Owns s creator t name) error
      (seeOwned creator stem key) s := by
  unfold seeOwned
  split
  · exact Ends.throw fun t _ _ => anyway t _
  · split
    · exact Ends.throw fun t _ _ => anyway t _
    · rename_i name _
      refine Ends.bind kept (find_ends (fun _ => anyway) kept fun _ => anyway)
        fun t found _ _ this => ?_
      refine Ends.pure fun u later _ other same => ?_
      split at same
      · rename_i owned
        cases same
        cases found with
        | none => cases owned
        | some entry =>
          obtain ⟨-, records, live⟩ := this
          exact Owns.later ⟨⟨entry, records, of_decide_eq_true owned⟩, live⟩ later
      · cases same

theorem ownedPage_ends (anyway : ∀ t e, error t e) (creator : Principal) (fuel : Nat)
    (after : Option TopicId) (limit : Nat) (kept : s.Kept used) :
    Ends (shared root used allowed) who
      (fun t names => ∀ found, names = some found → ∀ name ∈ found, Owns s creator t name) error
      (ownedPage root creator fuel after limit) s := by
  refine walk_ends (fun _ _ _ later owns => owns.later later) (fun t key before keptT => ?_)
    (fun _ => anyway) _ _ _ _ _ kept nofun
  refine Ends.mono (seeOwned_ends anyway creator _ key keptT) (fun u found _ _ this name same => ?_)
    fun u e _ _ _ => anyway u e
  obtain ⟨owned, live⟩ := this name same
  exact ⟨owned, fun dead => live (before.tombed name dead)⟩

end

end CatalogCall

end Oqueue.Broker
