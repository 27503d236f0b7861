import Oqueue.Group.Replay
import Oqueue.Library.LastSeen

/-!
# A replay finds what the node had

Every record is logged once, under the next version there is. The transitions' task serves one
request at a time, so the coordinator takes the records in the order of the log, and an offset
that is applied late does not replace a later one. So what a node has in memory is, but for the
records it has not applied yet, what a node that starts makes of the log.
-/

namespace Oqueue.GroupLog

open Log Checked

def Shows (offsets : Offsets) (entries : List Entry) : Prop :=
  ∀ key version offset, offsets.lookup key = some (version, offset) ↔
    (∃ entry ∈ entries, entry.val.version = version ∧
      entry.val.record.committed = some (key, offset)) ∧
    ∀ entry ∈ entries, ∀ other, entry.val.record.committed = some (key, other) →
      entry.val.version ≤ version

namespace Shows

variable {offsets other : Offsets} {entries more : List Entry} {entry : Entry}

theorem empty : Shows ∅ [] := by
  intro key version offset
  simp [Finmap.lookup_empty]

theorem congr (shows_ : Shows offsets entries) (same : ∀ e, e ∈ more ↔ e ∈ entries) :
    Shows offsets more := by
  intro key version offset
  simp only [same]
  exact shows_ key version offset

theorem unique (shows_ : Shows offsets entries) (shows_' : Shows other entries) :
    offsets = other := by
  apply Finmap.ext_lookup
  intro key
  apply Option.ext
  rintro ⟨version, offset⟩
  rw [shows_ key version offset, shows_' key version offset]

theorem exists_held (shows_ : Shows offsets entries) {key : OffsetKey} {offset : Int}
    (among : entry ∈ entries) (committed : entry.val.record.committed = some (key, offset)) :
    ∃ held, offsets.lookup key = some held ∧ entry.val.version ≤ held.1 := by
  classical
  obtain ⟨newest, inside, most⟩ := Finset.exists_max_image
    (entries.toFinset.filter fun e => ∃ offset, e.val.record.committed = some (key, offset))
    (fun e => e.val.version) ⟨entry, by simp [among, committed]⟩
  simp only [Finset.mem_filter, List.mem_toFinset] at inside most
  obtain ⟨there, offset', committed'⟩ := inside
  refine ⟨(newest.val.version, offset'), (shows_ _ _ _).mpr ⟨⟨newest, there, rfl, committed'⟩, ?_⟩,
    most entry ⟨among, offset, committed⟩⟩
  exact fun e among other committed => most e ⟨among, other, committed⟩

/-- An entry that is applied after others, of whatever versions. -/
theorem apply (shows_ : Shows offsets entries)
    (fresh : ∀ e ∈ entries, e.val.version ≠ entry.val.version) :
    Shows (entry.val.record.apply entry.val.version offsets) (entry :: entries) := by
  intro key version offset
  rw [GroupMetadataRecord.lookup_apply]
  simp only [List.exists_mem_cons_iff, List.forall_mem_cons]
  cases committed : entry.val.record.committed with
  | none => simpa using shows_ key version offset
  | some commit =>
    obtain ⟨place, placed⟩ := commit
    simp only [Option.some.injEq, Prod.mk.injEq]
    by_cases same : key = place
    · subst same
      by_cases newer : ∀ held, offsets.lookup key = some held → held.1 < entry.val.version
      · rw [if_pos ⟨rfl, newer⟩, Option.some.injEq, Prod.mk.injEq]
        have last {e other} (among : e ∈ entries)
            (committed : e.val.record.committed = some (key, other)) :
            e.val.version < entry.val.version := by
          obtain ⟨held, found, le⟩ := shows_.exists_held among committed
          exact Nat.lt_of_le_of_lt le (newer held found)
        constructor
        · rintro ⟨rfl, rfl⟩
          refine ⟨.inl ⟨rfl, rfl, rfl⟩, fun _ _ => Nat.le_refl _, ?_⟩
          exact fun e among other committed => (last among committed).le
        · rintro ⟨⟨rfl, -, rfl⟩ | ⟨e, among, rfl, committed⟩, first, -⟩
          · exact ⟨rfl, rfl⟩
          · exact absurd (first placed ⟨rfl, rfl⟩) (Nat.not_le.mpr (last among committed))
      · rw [if_neg fun both => newer both.2, shows_ key version offset]
        obtain ⟨held, newer⟩ := not_forall.mp newer
        obtain ⟨found, older⟩ := Classical.not_imp.mp newer
        obtain ⟨⟨e, among, same, committed⟩, most⟩ := (shows_ key held.1 held.2).mp found
        constructor
        · rintro ⟨⟨e', among', rfl, committed'⟩, most'⟩
          refine ⟨.inr ⟨e', among', rfl, committed'⟩, fun _ _ => ?_, most'⟩
          have := most' e among held.2 committed
          omega
        · rintro ⟨⟨rfl, -, -⟩ | there, -, most'⟩
          · have := most' e among held.2 committed
            exact absurd (by omega) (fresh e among)
          · exact ⟨there, most'⟩
    · rw [if_neg fun both => same both.1, shows_ key version offset]
      have other : place ≠ key := fun eq => same eq.symm
      simp [other]

end Shows

/-- Whether a writer is being served. -/
def Phase.active : Phase → Bool
  | .queued | .refused _ | .answered _ => false
  | .reading | .appending _ | .putting .. | .landed .. | .logged _ => true

theorem Phase.not_active {phase : Phase} (ended : phase.ended = true) : phase.active = false := by
  cases phase with
  | refused error => rfl
  | answered answer => rfl
  | _ => cases ended

namespace World

def entries (self : World) : List Entry := self.line.map Prod.snd

def HasLanded (self : World) (id : Nat) : Prop := id ∈ self.line.map Prod.fst

def isEnded (self : World) (id : Nat) : Bool :=
  (self.writers id).any fun writer => writer.phase.ended

/-- What is durable and applied. -/
def settled (self : World) : List Entry :=
  (self.line.filter fun landed => self.isEnded landed.1).map Prod.snd

end World

/-- What holds of a writer wherever it is; `cut` are those whose answer says nothing. -/
def Writer.Fits (world : World) (cut : Nat → Bool) (id : Nat) (writer : Writer) : Prop :=
  match writer.phase with
  | .queued => ¬ world.HasLanded id ∧ writer.record.val.committed = none
  | .refused _ | .reading => ¬ world.HasLanded id
  | .appending entry => ¬ world.HasLanded id ∧ entry.val.record = writer.record.val ∧
    entry.val.version ≤ world.log.nextSeq
  | .putting entry append => ¬ world.HasLanded id ∧ entry.val.record = writer.record.val ∧
    append.seq = entry.val.version ∧ append.seq ≤ world.log.nextSeq ∧ append.entries = [entry] ∧
    groupSegments.decode append.payload = .ok [entry]
  | .landed entry append => (id, entry) ∈ world.line ∧ entry.val.record = writer.record.val ∧
    append.seq = entry.val.version ∧ append.seq = world.log.nextSeq ∧ append.entries = [entry] ∧
    world.line.length = world.log.nextSeq + 1
  | .logged entry => (id, entry) ∈ world.line ∧ entry.val.record = writer.record.val
  | .answered (.ok _) => ∃ entry, (id, entry) ∈ world.line ∧ entry.val.record = writer.record.val
  | .answered (.error _) => cut id = false → ¬ world.HasLanded id

structure Node.Kept (node : Node) : Prop where
  queued : node.world.Queued
  stored : Stored node.world.store node.world.entries
  log : node.world.log.entries = node.world.entries.take node.world.log.nextSeq
  le : node.world.log.nextSeq ≤ node.world.line.length
  unread : node.world.log.nextSeq = node.world.line.length ∨ ∃ id writer entry append,
    node.world.writers id = some writer ∧ writer.phase = .landed entry append
  once : (node.world.line.map Prod.fst).Nodup
  owned : ∀ id, node.world.HasLanded id → (node.world.writers id).isSome
  fits : ∀ id writer, node.world.writers id = some writer → writer.Fits node.world node.cut id
  /-- Of the transitions and rosters, only what is being served is under way. -/
  alone : ∀ id writer, node.world.writers id = some writer →
    writer.record.val.committed = none → writer.phase.active = true → node.world.serving = some id
  serves : ∀ id, node.world.serving = some id → ∃ writer, node.world.writers id = some writer ∧
    writer.record.val.committed = none ∧ writer.phase.active = true ∧
    ∀ group event, writer.record.val = .groupTransitioned group event →
      ∃ record, ((node.world.coordinator.record group).getD .fresh).transition event = .ok record
  /-- Nothing but offsets lands after a transition or roster until that is applied. -/
  ordered : node.world.line.Pairwise fun first later => node.world.isEnded first.1 = false →
    first.2.val.record.committed = none → later.2.val.record.committed ≠ none
  groups : node.world.settled.foldlM Replaying.take {} = .ok ⟨node.world.coordinator, []⟩
  offsets : Shows node.world.offsets node.world.settled

section
variable {world next : World} {cut : Nat → Bool} {id other : Nat} {writer after : Writer}

structure World.Beside (world next : World) : Prop where
  store : next.store = world.store
  log : next.log = world.log
  coordinator : next.coordinator = world.coordinator
  offsets : next.offsets = world.offsets
  line : next.line = world.line

theorem Writer.Fits.congr (fits : writer.Fits world cut id) (line : next.line = world.line)
    (log : next.log = world.log) : writer.Fits next cut id := by
  unfold Writer.Fits World.HasLanded at fits ⊢
  rw [line, log]
  exact fits

theorem isEnded_of_ne (writers : next.writers = Function.update world.writers id (some after))
    (ne : other ≠ id) : next.isEnded other = world.isEnded other := by
  unfold World.isEnded
  rw [writers, Function.update_of_ne ne]

theorem isEnded_self (writers : next.writers = Function.update world.writers id (some after)) :
    next.isEnded id = after.phase.ended := by
  unfold World.isEnded
  rw [writers, Function.update_self]
  rfl

theorem hasLanded_of_mem {entry : Entry} (among : (id, entry) ∈ world.line) : world.HasLanded id :=
  List.mem_map.mpr ⟨_, among, rfl⟩

theorem Writer.Fits.not_landed (fits : writer.Fits world cut id) (out : ¬ world.HasLanded id)
    (entry : Entry) (append : Log.Append Entry) : writer.phase ≠ .landed entry append := by
  intro landed
  unfold Writer.Fits at fits
  rw [landed] at fits
  exact out (hasLanded_of_mem fits.1)

theorem Node.Kept.moves {node : Node} (kept : node.Kept) (out : ¬ node.world.HasLanded id)
    (beside : node.world.Beside next) (queued : next.Queued)
    (writers : next.writers = Function.update node.world.writers id (some after))
    (fits : after.Fits node.world node.cut id)
    (others : ∀ other, other ≠ id → (next.serving = some other ↔ node.world.serving = some other))
    (own : next.serving = some id ↔
      after.record.val.committed = none ∧ after.phase.active = true)
    (legal : next.serving = some id → ∀ group event,
      after.record.val = .groupTransitioned group event → ∃ record,
        ((node.world.coordinator.record group).getD .fresh).transition event = .ok record) :
    ({ node with world := next } : Node).Kept := by
  have there : next.writers id = some after := by rw [writers, Function.update_self]
  have elsewhere {other} (ne : other ≠ id) : next.writers other = node.world.writers other := by
    rw [writers, Function.update_of_ne ne]
  have apart {landed} (among : landed ∈ node.world.line) : landed.1 ≠ id := by
    rintro rfl
    exact out (hasLanded_of_mem among)
  have settled : next.settled = node.world.settled := by
    unfold World.settled
    rw [beside.line]
    congr 1
    exact List.filter_congr fun landed among => isEnded_of_ne writers (apart among)
  refine ⟨queued, ?_, ?_, ?_, ?_, ?_, ?_, ?_, ?_, ?_, ?_, ?_, ?_⟩
  · unfold World.entries
    rw [beside.store, beside.line]
    exact kept.stored
  · unfold World.entries
    rw [beside.log, beside.line]
    exact kept.log
  · rw [beside.log, beside.line]
    exact kept.le
  · rw [beside.log, beside.line]
    refine kept.unread.imp_right ?_
    rintro ⟨other, writer, entry, append, held, landed⟩
    have ne : other ≠ id := by
      rintro rfl
      exact (kept.fits _ _ held).not_landed out entry append landed
    exact ⟨other, writer, entry, append, (elsewhere ne).trans held, landed⟩
  · rw [beside.line]
    exact kept.once
  · intro other landed
    unfold World.HasLanded at landed
    rw [beside.line] at landed
    have ne : other ≠ id := by
      rintro rfl
      exact out landed
    dsimp only
    rw [elsewhere ne]
    exact kept.owned other landed
  · intro other writer held
    by_cases same : other = id
    · subst same
      rw [there] at held
      cases held
      exact fits.congr beside.line beside.log
    · rw [elsewhere same] at held
      exact (kept.fits other writer held).congr beside.line beside.log
  · intro other writer held uncommitted active
    by_cases same : other = id
    · subst same
      rw [there] at held
      cases held
      exact own.mpr ⟨uncommitted, active⟩
    · rw [elsewhere same] at held
      exact (others other same).mpr (kept.alone other writer held uncommitted active)
  · intro other serving
    dsimp only at serving ⊢
    rw [beside.coordinator]
    by_cases same : other = id
    · subst same
      obtain ⟨uncommitted, active⟩ := own.mp serving
      exact ⟨after, there, uncommitted, active, legal serving⟩
    · rw [elsewhere same]
      exact kept.serves other ((others other same).mp serving)
  · dsimp only
    rw [beside.line]
    refine kept.ordered.imp_of_mem fun {first later} among _ holds unended => holds ?_
    rwa [isEnded_of_ne writers (apart among)] at unended
  · dsimp only
    rw [settled, beside.coordinator]
    exact kept.groups
  · dsimp only
    rw [settled, beside.offsets]
    exact kept.offsets

namespace Node.Kept

variable {node : Node} {entry entry' : Entry}

theorem entry_unique (kept : node.Kept) (among : (id, entry) ∈ node.world.line)
    (among' : (id, entry') ∈ node.world.line) : entry = entry' := by
  have injective := List.inj_on_of_nodup_map kept.once
  exact congrArg Prod.snd (injective among among' rfl)

theorem place (kept : node.Kept) (among : (id, entry) ∈ node.world.line) :
    node.world.line[entry.val.version]? = some (id, entry) := by
  obtain ⟨i, there⟩ := List.getElem?_of_mem among
  have numbered : node.world.entries[i]? = some entry := by
    unfold World.entries
    rw [List.getElem?_map, there]
    rfl
  rw [kept.stored.numbered i entry numbered]
  exact there

/-- It is with its writer. -/
theorem held (kept : node.Kept) (among : (id, entry) ∈ node.world.line)
    (unended : node.world.isEnded id = false) :
    ∃ writer, node.world.writers id = some writer ∧ entry.val.record = writer.record.val ∧
      writer.phase.active = true := by
  have landed := hasLanded_of_mem among
  obtain ⟨writer, there⟩ := Option.isSome_iff_exists.mp (kept.owned id landed)
  have fits := kept.fits id writer there
  unfold World.isEnded at unended
  rw [there] at unended
  unfold Writer.Fits at fits
  refine ⟨writer, there, ?_⟩
  cases phase : writer.phase with
  | queued => rw [phase] at fits; exact absurd landed fits.1
  | refused error => rw [phase] at fits; exact absurd landed fits
  | reading => rw [phase] at fits; exact absurd landed fits
  | appending entry => rw [phase] at fits; exact absurd landed fits.1
  | putting entry append => rw [phase] at fits; exact absurd landed fits.1
  | landed own append =>
    rw [phase] at fits
    rw [kept.entry_unique among fits.1]
    exact ⟨fits.2.1, rfl⟩
  | logged own =>
    rw [phase] at fits
    rw [kept.entry_unique among fits.1]
    exact ⟨fits.2, rfl⟩
  | answered answer =>
    rw [Option.any_some, phase] at unended
    cases unended

theorem pending (kept : node.Kept) (among : (id, entry) ∈ node.world.line)
    (unended : node.world.isEnded id = false) (uncommitted : entry.val.record.committed = none) :
    node.world.serving = some id := by
  obtain ⟨writer, there, record, active⟩ := kept.held among unended
  rw [record] at uncommitted
  exact kept.alone id writer there uncommitted active

theorem choice (kept : node.Kept) :
    lastVersion groupSegments node.world.log.entries =
      if node.world.log.nextSeq = 0 then none else some (node.world.log.nextSeq - 1) := by
  have le : node.world.log.nextSeq ≤ node.world.entries.length := by
    unfold World.entries
    rw [List.length_map]
    exact kept.le
  rw [kept.log]
  exact kept.stored.lastVersion_take le

theorem at_end (kept : node.Kept) {append : Log.Append Entry} {store : Store}
    (le : append.seq ≤ node.world.log.nextSeq)
    (put : node.world.store.putSegment append = some store) :
    append.seq = node.world.line.length ∧ node.world.log.nextSeq = node.world.line.length := by
  unfold Store.putSegment at put
  split at put
  · rename_i absent
    have empty := kept.stored.segments append.seq
    rw [Option.isNone_iff_eq_none.mp absent, Option.map_none, eq_comm, Option.map_eq_none_iff,
      List.getElem?_eq_none_iff] at empty
    unfold World.entries at empty
    rw [List.length_map] at empty
    have := kept.le
    omega
  · cases put

theorem no_landed (kept : node.Kept) (all : node.world.log.nextSeq = node.world.line.length)
    {other : Nat} {writer : Writer} (held : node.world.writers other = some writer) (entry : Entry)
    (append : Log.Append Entry) : writer.phase ≠ .landed entry append := by
  intro landed
  have fits := kept.fits other writer held
  unfold Writer.Fits at fits
  rw [landed] at fits
  obtain ⟨-, -, -, -, -, length⟩ := fits
  omega

end Node.Kept

/-- A writer under way goes on, and is served if it was. -/
structure World.Continues (world next : World) (id : Nat) (writer after : Writer) : Prop where
  there : world.writers id = some writer
  writers : next.writers = Function.update world.writers id (some after)
  record : after.record = writer.record
  active : writer.phase.active = true
  active' : after.phase.active = true
  serving : next.serving = world.serving
  coordinator : next.coordinator = world.coordinator

namespace World.Continues

variable {node : Node} {writer' : Writer}

theorem itself (goes : world.Continues next id writer after) : next.writers id = some after := by
  rw [goes.writers, Function.update_self]

theorem elsewhere (goes : world.Continues next id writer after) (ne : other ≠ id) :
    next.writers other = world.writers other := by
  rw [goes.writers, Function.update_of_ne ne]

theorem isEnded (goes : world.Continues next id writer after) :
    next.isEnded other = world.isEnded other := by
  have unended {phase : Phase} (active : phase.active = true) : phase.ended = false := by
    by_contra ended
    rw [Phase.not_active (Bool.eq_true_of_not_eq_false ended)] at active
    cases active
  by_cases same : other = id
  · subst same
    rw [isEnded_self goes.writers, unended goes.active']
    unfold World.isEnded
    rw [goes.there, Option.any_some, unended goes.active]
  · exact isEnded_of_ne goes.writers same

theorem owned (goes : node.world.Continues next id writer after) (kept : node.Kept)
    (landed : other ≠ id → node.world.HasLanded other) : (next.writers other).isSome := by
  by_cases same : other = id
  · subst same
    exact Option.isSome_iff_exists.mpr ⟨_, goes.itself⟩
  · rw [goes.elsewhere same]
    exact kept.owned other (landed same)

theorem alone (goes : node.world.Continues next id writer after) (kept : node.Kept)
    (held : next.writers other = some writer') (uncommitted : writer'.record.val.committed = none)
    (active : writer'.phase.active = true) : next.serving = some other := by
  rw [goes.serving]
  by_cases same : other = id
  · subst same
    cases goes.itself.symm.trans held
    exact kept.alone other writer goes.there (goes.record ▸ uncommitted) goes.active
  · exact kept.alone other writer' ((goes.elsewhere same).symm.trans held) uncommitted active

theorem serves (goes : node.world.Continues next id writer after) (kept : node.Kept)
    (serving : next.serving = some other) : ∃ writer, next.writers other = some writer ∧
    writer.record.val.committed = none ∧ writer.phase.active = true ∧
    ∀ group event, writer.record.val = .groupTransitioned group event →
      ∃ record, ((next.coordinator.record group).getD .fresh).transition event = .ok record := by
  rw [goes.serving] at serving
  rw [goes.coordinator]
  obtain ⟨writer', there', uncommitted, active, legal⟩ := kept.serves other serving
  by_cases same : other = id
  · subst same
    cases goes.there.symm.trans there'
    rw [← goes.record] at uncommitted legal
    exact ⟨_, goes.itself, uncommitted, goes.active', legal⟩
  · exact ⟨writer', (goes.elsewhere same).trans there', uncommitted, active, legal⟩

end World.Continues

/-- Another writer's record lands. -/
theorem Writer.Fits.grows {entry : Entry} (fits : writer.Fits world cut other) (ne : other ≠ id)
    (line : next.line = world.line ++ [(id, entry)]) (log : next.log = world.log)
    (unlanded : ∀ entry append, writer.phase ≠ .landed entry append) :
    writer.Fits next cut other := by
  have out : next.HasLanded other ↔ world.HasLanded other := by
    unfold World.HasLanded
    simp [line, ne]
  have inside {e} (among : (other, e) ∈ world.line) : (other, e) ∈ next.line := by
    rw [line]
    exact List.mem_append_left _ among
  unfold Writer.Fits at fits ⊢
  cases phase : writer.phase with
  | queued => simpa only [phase, out] using fits
  | refused error => simpa only [phase, out] using fits
  | reading => simpa only [phase, out] using fits
  | appending entry => simpa only [phase, out, log] using fits
  | putting entry append => simpa only [phase, out, log] using fits
  | landed entry append => exact absurd phase (unlanded entry append)
  | logged entry =>
    rw [phase] at fits
    exact ⟨inside fits.1, fits.2⟩
  | answered answer =>
    rw [phase] at fits
    cases answer with
    | ok done =>
      obtain ⟨e, among, record⟩ := fits
      exact ⟨e, inside among, record⟩
    | error error => exact fun uncut landed => fits uncut (out.mp landed)

theorem Node.Kept.lands {node : Node} {entry : Entry} {append : Log.Append Entry} {store : Store}
    (kept : node.Kept) (there : node.world.writers id = some writer)
    (phase : writer.phase = .putting entry append)
    (put : node.world.store.putSegment append = some store) :
    let next := { node.world.move id writer (.landed entry append) with
      store
      line := node.world.line ++ [(id, entry)] }
    next.Queued → ({ node with world := next } : Node).Kept := by
  intro next queued
  have fits := kept.fits id writer there
  unfold Writer.Fits at fits
  rw [phase] at fits
  obtain ⟨out, record, version, le, single, decoded⟩ := fits
  obtain ⟨seq, all⟩ := kept.at_end le put
  have length : node.world.entries.length = node.world.line.length := List.length_map _
  have entries : next.entries = node.world.entries ++ [entry] := List.map_append
  have goes : node.world.Continues next id writer { writer with phase := .landed entry append } :=
    ⟨there, rfl, rfl, by rw [phase]; rfl, rfl, rfl, rfl⟩
  have settled : next.settled = node.world.settled := by
    change ((node.world.line ++ [(id, entry)]).filter _).map _ = _
    rw [List.filter_append, List.filter_cons_of_neg, List.filter_nil, List.append_nil]
    · unfold World.settled
      simp only [goes.isEnded]
    · rw [isEnded_self goes.writers]
      exact Bool.false_ne_true
  refine ⟨queued, ?_, ?_, ?_, ?_, ?_, ?_, ?_, ?_, ?_, ?_, ?_, ?_⟩
  · have placed : store = node.world.store.setSegment append.seq (some append.payload) := by
      unfold Store.putSegment at put
      split at put
      · exact (Option.some.inj put).symm
      · cases put
    change Stored store next.entries
    rw [entries, placed, seq, ← length]
    exact kept.stored.snoc (by omega) decoded
  · change node.world.log.entries = next.entries.take node.world.log.nextSeq
    rw [entries, List.take_append_of_le_length (by omega)]
    exact kept.log
  · change node.world.log.nextSeq ≤ (node.world.line ++ [(id, entry)]).length
    rw [List.length_append]
    exact Nat.le_add_right_of_le kept.le
  · exact .inr ⟨id, _, entry, append, goes.itself, rfl⟩
  · change ((node.world.line ++ [(id, entry)]).map Prod.fst).Nodup
    rw [List.map_append]
    exact List.nodup_append.mpr ⟨kept.once, List.nodup_singleton id, by
      rintro other among _ last rfl
      obtain rfl : other = id := List.mem_singleton.mp last
      exact out among⟩
  · intro other landed
    refine goes.owned kept fun ne => ?_
    change other ∈ (node.world.line ++ [(id, entry)]).map Prod.fst at landed
    simpa [World.HasLanded, ne] using landed
  · intro other writer held
    by_cases same : other = id
    · subst same
      cases goes.itself.symm.trans held
      refine ⟨List.mem_append_right _ (.head _), record, version, seq.trans all.symm, single, ?_⟩
      change (node.world.line ++ [(other, entry)]).length = node.world.log.nextSeq + 1
      rw [List.length_append, List.length_singleton, all]
    · have held : node.world.writers other = some writer := (goes.elsewhere same).symm.trans held
      exact (kept.fits other writer held).grows same rfl rfl (kept.no_landed all held)
  · exact fun other writer' => goes.alone kept
  · exact fun other => goes.serves kept
  · refine List.pairwise_append.mpr ⟨?_, List.pairwise_singleton _ _, ?_⟩
    · refine kept.ordered.imp fun {first later} holds unended => holds ?_
      rwa [← goes.isEnded]
    · rintro first among last only unended uncommitted committed
      rw [List.mem_singleton] at only
      subst only
      have serving : _ = some first.1 := kept.pending among
        (by rwa [← goes.isEnded]) uncommitted
      rw [record] at committed
      have own := kept.alone id writer there committed (by rw [phase]; rfl)
      obtain rfl : first.1 = id := Option.some.inj (serving.symm.trans own)
      exact out (hasLanded_of_mem among)
  · change next.settled.foldlM _ _ = _
    rw [settled]
    exact kept.groups
  · change Shows _ next.settled
    rw [settled]
    exact kept.offsets

/-- Another writer's record is published. -/
theorem Writer.Fits.publishes (fits : writer.Fits world cut other)
    (line : next.line = world.line) (further : world.log.nextSeq ≤ next.log.nextSeq)
    (unlanded : ∀ entry append, writer.phase ≠ .landed entry append) :
    writer.Fits next cut other := by
  unfold Writer.Fits World.HasLanded at fits ⊢
  rw [line]
  cases phase : writer.phase with
  | queued => rwa [phase] at fits
  | refused error => rwa [phase] at fits
  | reading => rwa [phase] at fits
  | appending entry =>
    rw [phase] at fits
    exact ⟨fits.1, fits.2.1, fits.2.2.trans further⟩
  | putting entry append =>
    rw [phase] at fits
    exact ⟨fits.1, fits.2.1, fits.2.2.1, fits.2.2.2.1.trans further, fits.2.2.2.2⟩
  | landed entry append => exact absurd phase (unlanded entry append)
  | logged entry => rwa [phase] at fits
  | answered answer =>
    rw [phase] at fits
    cases answer with
    | ok done => exact fits
    | error error => exact fits

/-- What was appended is in memory. -/
theorem Node.Kept.published {node : Node} {entry : Entry} {append : Log.Append Entry}
    {log : State Entry} (kept : node.Kept) (there : node.world.writers id = some writer)
    (phase : writer.phase = .landed entry append)
    (done : node.world.log.appended append = .ok log) :
    let next := { node.world.move id writer (.logged entry) with log }
    next.Queued → ({ node with world := next } : Node).Kept := by
  intro next queued
  have fits := kept.fits id writer there
  unfold Writer.Fits at fits
  rw [phase] at fits
  obtain ⟨among, record, version, seq, single, length⟩ := fits
  have appended : log.nextSeq = node.world.line.length ∧
      log.entries = node.world.log.entries ++ [entry] := by
    obtain ⟨number, counted, done⟩ := bind_eq_ok.mp done
    cases done
    obtain ⟨rfl, -⟩ := CommitVersion.advance_eq_ok.mp counted
    exact ⟨by dsimp only; omega, by rw [single]⟩
  have goes : node.world.Continues next id writer { writer with phase := .logged entry } :=
    ⟨there, rfl, rfl, by rw [phase]; rfl, rfl, rfl, rfl⟩
  have settled : next.settled = node.world.settled := by
    unfold World.settled
    simp only [goes.isEnded]
    rfl
  refine ⟨queued, kept.stored, ?_, ?_, ?_, kept.once, ?_, ?_, ?_, ?_, ?_, ?_, ?_⟩
  · change log.entries = node.world.entries.take log.nextSeq
    have full : node.world.entries.length = node.world.line.length := List.length_map _
    have last : node.world.entries[node.world.log.nextSeq]? = some entry := by
      unfold World.entries
      rw [List.getElem?_map, ← seq, version, kept.place among]
      rfl
    rw [appended.1, appended.2, kept.log, length, List.take_add_one, last]
    rfl
  · exact appended.1.le
  · exact .inl appended.1
  · exact fun other landed => goes.owned kept fun _ => landed
  · intro other writer' held
    by_cases same : other = id
    · subst same
      cases goes.itself.symm.trans held
      exact ⟨among, record⟩
    · have held : node.world.writers other = some writer' :=
        (goes.elsewhere same).symm.trans held
      have fits := kept.fits other writer' held
      refine fits.publishes rfl (appended.1 ▸ kept.le) fun entry' append' landed => same ?_
      -- only one record is past what is in memory
      unfold Writer.Fits at fits
      rw [landed] at fits
      obtain ⟨among', -, version', seq', -⟩ := fits
      have first := kept.place among
      rw [show entry.val.version = entry'.val.version by omega, kept.place among'] at first
      exact congrArg Prod.fst (Option.some.inj first)
  · exact fun other writer' => goes.alone kept
  · exact fun other => goes.serves kept
  · refine kept.ordered.imp fun {first later} holds unended => holds ?_
    rwa [← goes.isEnded]
  · change next.settled.foldlM _ _ = _
    rw [settled]
    exact kept.groups
  · change Shows _ next.settled
    rw [settled]
    exact kept.offsets

def isMove (entry : Entry) : Bool := entry.val.record.committed.isNone

theorem take_of_committed (s : Replaying) (entry : Entry) (committed : isMove entry = false) :
    s.take entry = .ok s := by
  unfold isMove at committed
  unfold Replaying.take
  cases record : entry.val.record with
  | offsetCommitted group topic partition offset => rfl
  | groupTransitioned group event =>
    rw [record] at committed
    cases committed
  | groupRosterUpdated group roster =>
    rw [record] at committed
    cases committed

theorem foldlM_take (entries : List Entry) (s : Replaying) :
    entries.foldlM Replaying.take s = (entries.filter isMove).foldlM Replaying.take s :=
  Paged.foldlM_filter take_of_committed entries s

theorem take_of_applied {entry : Entry}
    (applied : world.applied entry.val.record entry.val.version = .ok next) :
    Replaying.take ⟨world.coordinator, []⟩ entry = .ok ⟨next.coordinator, []⟩ := by
  unfold Replaying.take
  unfold World.applied at applied
  cases record : entry.val.record with
  | offsetCommitted group topic partition offset =>
    rw [record] at applied
    cases applied
    rfl
  | groupTransitioned group event =>
    rw [record] at applied
    obtain ⟨⟨coordinator, state⟩, taken, done⟩ := bind_eq_ok.mp applied
    cases done
    dsimp only
    rw [if_neg List.not_mem_nil, taken]
  | groupRosterUpdated group roster =>
    rw [record] at applied
    cases applied
    dsimp only
    rw [if_neg List.not_mem_nil]

theorem exists_applied {record : GroupMetadataRecord} (version : Nat)
    (legal : ∀ group event, record = .groupTransitioned group event →
      ∃ state, ((world.coordinator.record group).getD .fresh).transition event = .ok state) :
    ∃ next, world.applied record version = .ok next ∧ next.store = world.store ∧
      next.log = world.log ∧ next.serving = world.serving ∧
      next.offsets = record.apply version world.offsets ∧
      (record.committed ≠ none → next.coordinator = world.coordinator) := by
  cases record with
  | offsetCommitted group topic partition offset =>
    exact ⟨_, rfl, rfl, rfl, rfl, rfl, fun _ => rfl⟩
  | groupTransitioned group event =>
    obtain ⟨state, taken⟩ := legal group event rfl
    unfold World.applied GroupCoordinator.transition
    dsimp only
    rw [taken]
    exact ⟨_, rfl, rfl, rfl, rfl, rfl, fun moved => absurd rfl moved⟩
  | groupRosterUpdated group roster =>
    exact ⟨_, rfl, rfl, rfl, rfl, rfl, fun moved => absurd rfl moved⟩

/-- At most one of the records that move the coordinator has landed and is not applied. -/
theorem World.waiting (ordered : world.line.Pairwise fun first later =>
      world.isEnded first.1 = false → first.2.val.record.committed = none →
        later.2.val.record.committed ≠ none) :
    ∃ waits : List (Nat × Entry),
      world.entries.filter isMove = world.settled.filter isMove ++ waits.map Prod.snd ∧
      waits.length ≤ 1 ∧ ∀ landed, landed ∈ waits ↔
        landed ∈ world.line ∧ isMove landed.2 = true ∧ world.isEnded landed.1 = false := by
  have ended : (world.line.filter fun landed => isMove landed.2).Pairwise
      fun first _ => world.isEnded first.1 = true := by
    refine (List.pairwise_filter.mpr (ordered.imp ?_))
    intro first later holds moving moving'
    by_contra unended
    rw [Bool.not_eq_true] at unended
    exact holds unended (Option.isNone_iff_eq_none.mp moving) (Option.isNone_iff_eq_none.mp moving')
  obtain ⟨split, few⟩ := List.filter_eq_passed_append ended
  refine ⟨_, ?_, few, fun landed => ?_⟩
  swap
  · rw [List.mem_filter, List.mem_filter, and_assoc, Bool.not_eq_true']
  unfold World.entries World.settled
  rw [List.filter_map, List.filter_map, List.filter_filter, ← List.map_append]
  refine congrArg _ (split.trans ?_)
  rw [List.filter_filter]
  congr 1
  exact List.filter_congr fun landed _ => Bool.and_comm _ _

structure World.Ends (world next : World) (id : Nat) : Prop where
  line : next.line = world.line
  unended : world.isEnded id = false
  ended : next.isEnded id = true
  others : ∀ other, other ≠ id → next.isEnded other = world.isEnded other

namespace World.Ends

theorem of_update (there : world.writers id = some writer) (unended : writer.phase.ended = false)
    (writers : next.writers = Function.update world.writers id (some after))
    (ended : after.phase.ended = true) (line : next.line = world.line) : world.Ends next id where
  line := line
  unended := by
    unfold World.isEnded
    rw [there]
    exact unended
  ended := (isEnded_self writers).trans ended
  others := fun _ ne => isEnded_of_ne writers ne

theorem before (ends : world.Ends next id) (now : next.isEnded other = false) :
    other ≠ id ∧ world.isEnded other = false := by
  have ne : other ≠ id := by
    rintro rfl
    exact absurd (ends.ended.symm.trans now) (by decide)
  exact ⟨ne, (ends.others other ne).symm.trans now⟩

theorem entries (ends : world.Ends next id) : next.entries = world.entries :=
  congrArg (List.map Prod.snd) ends.line

theorem ordered (ends : world.Ends next id) (ordered : world.line.Pairwise fun first later =>
      world.isEnded first.1 = false → first.2.val.record.committed = none →
        later.2.val.record.committed ≠ none) :
    next.line.Pairwise fun first later => next.isEnded first.1 = false →
      first.2.val.record.committed = none → later.2.val.record.committed ≠ none := by
  rw [ends.line]
  exact ordered.imp fun {first later} holds now => holds (ends.before now).2

end World.Ends

namespace Node.Kept

variable {node : Node}

theorem legal (kept : node.Kept) (there : node.world.writers id = some writer)
    (active : writer.phase.active = true) : ∀ group event,
      writer.record.val = .groupTransitioned group event → ∃ state,
        ((node.world.coordinator.record group).getD .fresh).transition event = .ok state := by
  intro group event record
  have serving := kept.alone id writer there (by rw [record]; rfl) active
  obtain ⟨writer', there', -, -, legal⟩ := kept.serves id serving
  cases there.symm.trans there'
  exact legal group event record

section
variable {entry : Entry}

theorem mem_settled (kept : node.Kept) (ends : node.world.Ends next id)
    (among : (id, entry) ∈ node.world.line) (e : Entry) :
    e ∈ next.settled ↔ e = entry ∨ e ∈ node.world.settled := by
  unfold World.settled
  simp only [ends.line, List.mem_map, List.mem_filter, Prod.exists, exists_eq_right]
  constructor
  · rintro ⟨other, inside, is⟩
    by_cases same : other = id
    · subst same
      exact .inl (kept.entry_unique inside among)
    · exact .inr ⟨other, inside, (ends.others other same).symm.trans is⟩
  · rintro (rfl | ⟨other, inside, is⟩)
    · exact ⟨id, among, ends.ended⟩
    · refine ⟨other, inside, ?_⟩
      by_contra now
      exact absurd ((ends.before (Bool.not_eq_true _ ▸ now)).2.symm.trans is) (by decide)

theorem settled_of_committed (kept : node.Kept) (ends : node.world.Ends next id)
    (among : (id, entry) ∈ node.world.line) (committed : isMove entry = false) :
    next.settled.filter isMove = node.world.settled.filter isMove := by
  unfold World.settled
  rw [ends.line, List.filter_map, List.filter_map, List.filter_filter, List.filter_filter]
  congr 1
  refine List.filter_congr fun landed inside => ?_
  by_cases own : landed.1 = id
  · obtain rfl : landed.2 = entry :=
      kept.entry_unique (show (id, landed.2) ∈ node.world.line from own ▸ inside) among
    simp [committed]
  · rw [ends.others _ own]

theorem settled_of_move (kept : node.Kept) (ends : node.world.Ends next id)
    (among : (id, entry) ∈ node.world.line) (moving : isMove entry = true) :
    next.settled.filter isMove = node.world.settled.filter isMove ++ [entry] := by
  obtain ⟨waits, split, few, waiting⟩ := World.waiting kept.ordered
  obtain ⟨none, split', -, waiting'⟩ := World.waiting (ends.ordered kept.ordered)
  have inside : (id, entry) ∈ waits := (waiting _).mpr ⟨among, moving, ends.unended⟩
  obtain ⟨only, rfl⟩ :=
    List.length_eq_one_iff.mp (Nat.le_antisymm few (List.length_pos_of_mem inside))
  obtain rfl := List.mem_singleton.mp inside
  obtain rfl : none = [] := by
    refine List.eq_nil_iff_forall_not_mem.mpr fun landed still => ?_
    obtain ⟨inside', moving', unended'⟩ := (waiting' landed).mp still
    obtain ⟨ne, before⟩ := ends.before unended'
    rw [ends.line] at inside'
    exact ne (congrArg Prod.fst
      (List.mem_singleton.mp ((waiting landed).mpr ⟨inside', moving', before⟩)))
  rw [ends.entries, split, List.map_nil, List.append_nil] at split'
  exact split'.symm

theorem groups_of_ends (kept : node.Kept) (ends : node.world.Ends next id)
    (among : (id, entry) ∈ node.world.line) {after : World}
    (applied : node.world.applied entry.val.record entry.val.version = .ok after)
    (coordinator : entry.val.record.committed ≠ none →
      after.coordinator = node.world.coordinator) :
    next.settled.foldlM Replaying.take {} = .ok ⟨after.coordinator, []⟩ := by
  have groups := kept.groups
  rw [foldlM_take] at groups ⊢
  cases moving : isMove entry with
  | false =>
    have committed : entry.val.record.committed ≠ none := fun none =>
      absurd moving (by simp [isMove, none])
    rw [kept.settled_of_committed ends among moving, groups, coordinator committed]
  | true =>
    rw [kept.settled_of_move ends among moving, foldlM_snoc, groups, bind_ok]
    exact take_of_applied applied

theorem shows_of_ends (kept : node.Kept) (ends : node.world.Ends next id)
    (among : (id, entry) ∈ node.world.line) :
    Shows (entry.val.record.apply entry.val.version node.world.offsets) next.settled := by
  refine (kept.offsets.apply fun e inside same => ?_).congr fun e => ?_
  · obtain ⟨landed, apart, rfl⟩ := List.mem_map.mp inside
    obtain ⟨inside, before⟩ := List.mem_filter.mp apart
    have place : node.world.line[landed.2.val.version]? = some (landed.1, landed.2) :=
      kept.place inside
    rw [same, kept.place among] at place
    rw [← congrArg Prod.fst (Option.some.inj place), ends.unended] at before
    cases before
  · rw [kept.mem_settled ends among, List.mem_cons]

/-- A writer whose record is applied has ended. -/
theorem applies (kept : node.Kept) (there : node.world.writers id = some writer)
    (phase : writer.phase = .logged entry) {after : World}
    (applied : node.world.applied writer.record.val entry.val.version = .ok after) :
    let next := { after.move id writer (.answered (.ok ())) with
      serving := if after.serving = some id then none else after.serving }
    next.Queued → ({ node with world := next } : Node).Kept := by
  intro next queued
  have fits := kept.fits id writer there
  unfold Writer.Fits at fits
  rw [phase] at fits
  obtain ⟨among, record⟩ := fits
  obtain ⟨after', applied', store, log, serving, offsets, coordinator⟩ :=
    exists_applied entry.val.version (kept.legal there (by rw [phase]; rfl))
  cases applied'.symm.trans applied
  obtain ⟨writers', line, queue, -⟩ := World.applied_eq_ok applied
  have writers : next.writers = Function.update node.world.writers id
      (some { writer with phase := .answered (.ok ()) }) := by
    rw [← writers']
    rfl
  have itself : next.writers id = some { writer with phase := .answered (.ok ()) } := by
    rw [writers, Function.update_self]
  have elsewhere {other} (ne : other ≠ id) : next.writers other = node.world.writers other := by
    rw [writers, Function.update_of_ne ne]
  have line : next.line = node.world.line := line
  have ends : node.world.Ends next id :=
    .of_update there (by rw [phase]; rfl) writers rfl line
  refine ⟨queued, ?_, ?_, ?_, ?_, ?_, ?_, ?_, ?_, ?_, ends.ordered kept.ordered, ?_, ?_⟩
  · change Stored after.store next.entries
    rw [store, ends.entries]
    exact kept.stored
  · change after.log.entries = next.entries.take after.log.nextSeq
    rw [log, ends.entries]
    exact kept.log
  · change after.log.nextSeq ≤ next.line.length
    rw [log, line]
    exact kept.le
  · change after.log.nextSeq = next.line.length ∨ _
    rw [log, line]
    refine kept.unread.imp_right ?_
    rintro ⟨other, writer', entry', append, held, landed⟩
    refine ⟨other, writer', entry', append, (elsewhere ?_).trans held, landed⟩
    rintro rfl
    cases there.symm.trans held
    rw [phase] at landed
    cases landed
  · change (next.line.map Prod.fst).Nodup
    rw [line]
    exact kept.once
  · intro other landed
    by_cases same : other = id
    · subst same
      exact Option.isSome_iff_exists.mpr ⟨_, itself⟩
    · change (next.writers other).isSome
      rw [elsewhere same]
      refine kept.owned other ?_
      change other ∈ next.line.map Prod.fst at landed
      rwa [line] at landed
  · intro other writer' held
    by_cases same : other = id
    · subst same
      cases itself.symm.trans held
      exact ⟨entry, line ▸ among, record⟩
    · have fits := kept.fits other writer' ((elsewhere same).symm.trans held)
      exact fits.congr line log
  · intro other writer' held uncommitted active
    change (if after.serving = some id then none else after.serving) = some other
    by_cases same : other = id
    · subst same
      cases itself.symm.trans held
      cases active
    · have own := kept.alone other writer' ((elsewhere same).symm.trans held) uncommitted active
      rw [serving, own, if_neg fun eq => same (Option.some.inj eq)]
  · intro other now
    change (if after.serving = some id then none else after.serving) = some other at now
    rw [serving] at now
    split at now
    · cases now
    · rename_i unserved
      have ne : other ≠ id := by
        rintro rfl
        exact unserved now
      obtain ⟨writer', held, uncommitted, active, legal⟩ := kept.serves other now
      refine ⟨writer', (elsewhere ne).trans held, uncommitted, active, ?_⟩
      change ∀ group event, _ → ∃ record, ((after.coordinator.record group).getD _).transition _ = _
      rw [coordinator]
      · exact legal
      · intro moving
        exact unserved (kept.alone id writer there moving (by rw [phase]; rfl))
  · rw [← record] at applied coordinator
    change next.settled.foldlM Replaying.take {} = .ok ⟨after.coordinator, []⟩
    exact kept.groups_of_ends ends among applied coordinator
  · change Shows after.offsets next.settled
    rw [offsets, ← record]
    exact kept.shows_of_ends ends among

end

theorem absent (kept : node.Kept) (free : node.world.writers id = none) :
    ¬ node.world.HasLanded id ∧ node.world.serving ≠ some id := by
  constructor
  · intro landed
    have owned := kept.owned id landed
    rw [free] at owned
    cases owned
  · intro serving
    obtain ⟨writer, there, -⟩ := kept.serves id serving
    rw [free] at there
    cases there

theorem serving_iff (kept : node.Kept) (there : node.world.writers id = some writer)
    (active : writer.phase.active = true) :
    node.world.serving = some id ↔ writer.record.val.committed = none := by
  refine ⟨fun serving => ?_, fun uncommitted => kept.alone id writer there uncommitted active⟩
  obtain ⟨writer', there', uncommitted, -⟩ := kept.serves id serving
  cases there.symm.trans there'
  exact uncommitted

theorem goes (kept : node.Kept) (there : node.world.writers id = some writer)
    (active : writer.phase.active = true) (out : ¬ node.world.HasLanded id) {after : Writer}
    (record : after.record = writer.record) (active' : after.phase.active = true)
    (fits : after.Fits node.world node.cut id) (queued : (node.world.setWriter id after).Queued) :
    ({ node with world := node.world.setWriter id after } : Node).Kept := by
  refine kept.moves out ⟨rfl, rfl, rfl, rfl, rfl⟩ queued rfl fits (fun _ _ => Iff.rfl) ?_ ?_
  · rw [record]
    exact (kept.serving_iff there active).trans (and_iff_left active').symm
  · intro _
    rw [record]
    exact kept.legal there active

theorem fails (kept : node.Kept) (out : ¬ node.world.HasLanded id) (writer : Writer)
    (error : Error) (queued : (node.world.fail id writer error).Queued) :
    ({ node with world := node.world.fail id writer error } : Node).Kept := by
  have gone : (node.world.fail id writer error).serving ≠ some id := by
    change (if node.world.serving = some id then none else node.world.serving) ≠ some id
    split
    · exact fun no => by cases no
    · assumption
  refine kept.moves out ⟨rfl, rfl, rfl, rfl, rfl⟩ queued rfl (fun _ => out) ?_ ?_ ?_
  · intro other ne
    change (if node.world.serving = some id then none else node.world.serving) = some other ↔ _
    split
    · rename_i own
      rw [own, Option.some.injEq]
      exact ⟨fun no => (by cases no), fun same => absurd same.symm ne⟩
    · exact Iff.rfl
  · exact ⟨fun serving => absurd serving gone, fun both => by cases both.2⟩
  · exact fun serving => absurd serving gone

theorem append_spec {state : State Entry} {entry : Entry} {append : Log.Append Entry}
    (appended : state.append groupSegments [entry] = .ok (some append)) :
    append.seq = state.nextSeq ∧ append.entries = [entry] ∧
      groupSegments.decode append.payload = .ok [entry] ∧
      ∀ last, lastVersion groupSegments state.entries = some last → last < entry.val.version := by
  unfold State.append at appended
  obtain ⟨_, valid, rest⟩ := bind_eq_ok.mp appended
  obtain ⟨payload, encoded, done⟩ := bind_eq_ok.mp rest
  cases done
  refine ⟨rfl, rfl, groupSegments.decode_encode encoded, fun last is => ?_⟩
  rw [is] at valid
  unfold validate at valid
  split at valid
  · cases valid
  · rename_i newer
    exact Nat.not_le.mp newer

section
variable {entry : Entry} {append : Log.Append Entry}

theorem commits (kept : node.Kept) {record : Record}
    (stepped : node.world.step (.commit id record) = some next) (queued : next.Queued) :
    ({ node with world := next } : Node).Kept := by
  unfold World.step at stepped
  dsimp only at stepped
  split at stepped
  · cases stepped
  · rename_i free
    obtain ⟨free, committed⟩ := not_or.mp free
    cases stepped
    obtain ⟨out, unserved⟩ := kept.absent (Option.not_isSome_iff_eq_none.mp free)
    refine kept.moves out ⟨rfl, rfl, rfl, rfl, rfl⟩ queued rfl out (fun _ _ => Iff.rfl) ?_ ?_
    · refine ⟨fun serving => absurd serving unserved, fun both => ?_⟩
      exact absurd (Option.isNone_iff_eq_none.mpr both.1) committed
    · exact fun serving => absurd serving unserved

theorem enqueues (kept : node.Kept) {record : Record}
    (stepped : node.world.step (.enqueue id record) = some next) (queued : next.Queued) :
    ({ node with world := next } : Node).Kept := by
  unfold World.step at stepped
  dsimp only at stepped
  split at stepped
  · cases stepped
  · rename_i free
    obtain ⟨free, committed⟩ := not_or.mp free
    cases stepped
    obtain ⟨out, unserved⟩ := kept.absent (Option.not_isSome_iff_eq_none.mp free)
    refine kept.moves out ⟨rfl, rfl, rfl, rfl, rfl⟩ queued rfl
      ⟨out, Option.not_isSome_iff_eq_none.mp committed⟩ (fun _ _ => Iff.rfl) ?_ ?_
    · exact ⟨fun serving => absurd serving unserved, fun both => by cases both.2⟩
    · exact fun serving => absurd serving unserved

theorem begins (kept : node.Kept) (unserved : node.world.serving = none)
    (out : ¬ node.world.HasLanded id) (uncommitted : writer.record.val.committed = none)
    (legal : ∀ group event, writer.record.val = .groupTransitioned group event → ∃ state,
      ((node.world.coordinator.record group).getD .fresh).transition event = .ok state)
    {queue : List Nat} (queued : World.Queued
      { { node.world with queue }.move id writer .reading with serving := some id }) :
    ({ node with world :=
      { { node.world with queue }.move id writer .reading with serving := some id } } :
        Node).Kept := by
  refine kept.moves out ⟨rfl, rfl, rfl, rfl, rfl⟩ queued rfl out ?_ ?_ (fun _ => legal)
  · intro other ne
    rw [unserved]
    exact ⟨fun same => absurd (Option.some.inj same).symm ne, fun no => (by cases no)⟩
  · exact iff_of_true rfl ⟨uncommitted, rfl⟩

theorem takes (kept : node.Kept) (unserved : node.world.serving = none)
    (out : ¬ node.world.HasLanded id) (uncommitted : writer.record.val.committed = none)
    {queue : List Nat} (queued : ({ node.world with queue }.receive id writer).Queued) :
    ({ node with world := { node.world with queue }.receive id writer } : Node).Kept := by
  unfold World.receive at queued ⊢
  split at queued
  · rename_i group event record
    dsimp only at queued ⊢
    split at queued
    · have gone : node.world.serving ≠ some id := by
        rw [unserved]
        exact fun no => (by cases no)
      refine kept.moves out ⟨rfl, rfl, rfl, rfl, rfl⟩ queued rfl out (fun _ _ => Iff.rfl) ?_ ?_
      · exact ⟨fun serving => absurd serving gone, fun both => (by cases both.2)⟩
      · exact fun serving => absurd serving gone
    · rename_i state taken
      refine kept.begins unserved out uncommitted (fun group' event' record' => ?_) queued
      rw [record] at record'
      cases record'
      exact ⟨state, taken⟩
  · rename_i other
    exact kept.begins unserved out uncommitted
      (fun group event record => absurd record (other group event)) queued

theorem receives (kept : node.Kept) (stepped : node.world.step .receive = some next)
    (queued : next.Queued) : ({ node with world := next } : Node).Kept := by
  unfold World.step at stepped
  dsimp only at stepped
  split at stepped
  · rename_i id queue waiting unserved
    obtain ⟨writer, there, rfl⟩ := Option.map_eq_some_iff.mp stepped
    obtain ⟨writer', there', phase⟩ := kept.queued.waits id (by rw [waiting]; exact .head _)
    cases there.symm.trans there'
    have fits := kept.fits id writer there
    unfold Writer.Fits at fits
    rw [phase] at fits
    exact kept.takes unserved fits.1 fits.2 queued
  · cases stepped

theorem chosen (kept : node.Kept) (chosen : nextEntry
      (lastVersion groupSegments node.world.log.entries) writer.record = .ok entry) :
    entry.val.record = writer.record.val ∧ entry.val.version ≤ node.world.log.nextSeq := by
  rw [kept.choice] at chosen
  split at chosen
  · cases chosen
    exact ⟨rfl, Nat.zero_le _⟩
  · rename_i some_
    unfold nextEntry at chosen
    dsimp only at chosen
    split at chosen
    · cases chosen
      exact ⟨rfl, (Nat.sub_add_cancel (Nat.pos_of_ne_zero some_)).le⟩
    · cases chosen

theorem reads (kept : node.Kept) (stepped : node.world.step (.read id) = some next)
    (queued : next.Queued) : ({ node with world := next } : Node).Kept := by
  obtain ⟨writer, there, stepped⟩ := Option.bind_eq_some_iff.mp stepped
  split at stepped
  · rename_i reading
    have out := kept.fits id writer there
    unfold Writer.Fits at out
    rw [reading] at out
    have active : writer.phase.active = true := by
      rw [reading]
      rfl
    split at stepped
    · rename_i entry chosen
      cases stepped
      exact kept.goes there active out rfl rfl ⟨out, kept.chosen chosen⟩ queued
    · cases stepped
      exact kept.fails out writer _ queued
  · cases stepped

theorem retries (kept : node.Kept) (there : node.world.writers id = some writer)
    (active : writer.phase.active = true) (out : ¬ node.world.HasLanded id)
    (queued : (node.world.retry id writer).Queued) :
    ({ node with world := node.world.retry id writer } : Node).Kept := by
  unfold World.retry at queued ⊢
  dsimp only at queued ⊢
  by_cases more : writer.lost + 1 < maxRetries
  · rw [if_pos more] at queued ⊢
    exact @goes _ _ _ kept there active out
      { writer with lost := writer.lost + 1, phase := .reading } rfl rfl out queued
  · rw [if_neg more] at queued ⊢
    exact kept.fails out _ _ queued

theorem appends (kept : node.Kept) (there : node.world.writers id = some writer)
    (appending : writer.phase = .appending entry)
    (queued : (node.world.append id writer entry).Queued) :
    ({ node with world := node.world.append id writer entry } : Node).Kept := by
  have fits := kept.fits id writer there
  unfold Writer.Fits at fits
  rw [appending] at fits
  obtain ⟨out, record, le⟩ := fits
  have active : writer.phase.active = true := by
    rw [appending]
    rfl
  unfold World.append at queued ⊢
  split at queued
  · rename_i append appended
    obtain ⟨seq, single, decoded, newer⟩ := append_spec appended
    refine kept.goes there active out rfl rfl ⟨out, record, ?_, seq.le, single, decoded⟩ queued
    rw [kept.choice] at newer
    split at newer
    · omega
    · have := newer _ rfl
      omega
  · rename_i appended
    unfold State.append at appended
    obtain ⟨-, -, rest⟩ := bind_eq_ok.mp appended
    obtain ⟨payload, -, done⟩ := bind_eq_ok.mp rest
    cases done
  · exact kept.retries there active out queued
  · exact kept.fails out _ _ queued

theorem puts (kept : node.Kept) (there : node.world.writers id = some writer)
    (putting : writer.phase = .putting entry append)
    (queued : (node.world.put id writer entry append).Queued) :
    ({ node with world := node.world.put id writer entry append } : Node).Kept := by
  have fits := kept.fits id writer there
  unfold Writer.Fits at fits
  rw [putting] at fits
  unfold World.put at queued ⊢
  split at queued
  · rename_i store put
    exact kept.lands there putting put queued
  · exact kept.fails fits.1 _ _ queued

theorem publishes (kept : node.Kept) (short : node.world.line.length < 2 ^ 64)
    (there : node.world.writers id = some writer) (landed : writer.phase = .landed entry append)
    (queued : (node.world.publish id writer entry append).Queued) :
    ({ node with world := node.world.publish id writer entry append } : Node).Kept := by
  unfold World.publish at queued ⊢
  split at queued
  · rename_i log appended
    exact kept.published there landed appended queued
  · -- Nothing numbered by what landed is past a `u64`.
    rename_i error refused
    have fits := kept.fits id writer there
    unfold Writer.Fits at fits
    rw [landed] at fits
    obtain ⟨-, -, -, seq, -, length⟩ := fits
    have counted : Log.next append.seq = .ok (append.seq + 1) :=
      CommitVersion.advance_eq_ok.mpr ⟨rfl, by unfold u64Max; omega⟩
    unfold State.appended at refused
    rw [counted] at refused
    cases refused

theorem finishes (kept : node.Kept) (there : node.world.writers id = some writer)
    (logged : writer.phase = .logged entry)
    (queued : (node.world.finish id writer entry).Queued) :
    ({ node with world := node.world.finish id writer entry } : Node).Kept := by
  unfold World.finish at queued ⊢
  split at queued
  · rename_i error refused
    obtain ⟨after, applied, -⟩ :=
      exists_applied entry.val.version (kept.legal there (by rw [logged]; rfl))
    cases applied.symm.trans refused
  · rename_i after applied
    exact kept.applies there logged applied queued

end

/-- Every action of a writer or of the transitions' task keeps what is known of the node. -/
theorem world_step (kept : node.Kept) (short : node.world.line.length < 2 ^ 64) {action : Action}
    (stepped : node.world.step action = some next) : ({ node with world := next } : Node).Kept := by
  have queued : next.Queued := by
    obtain ⟨id, after, -, queued, -⟩ := World.step_advances kept.queued stepped
    exact queued
  cases action with
  | commit id record => exact kept.commits stepped queued
  | enqueue id record => exact kept.enqueues stepped queued
  | receive => exact kept.receives stepped queued
  | read id => exact kept.reads stepped queued
  | append id =>
    obtain ⟨writer, there, stepped⟩ := Option.bind_eq_some_iff.mp stepped
    split at stepped
    · rename_i entry appending
      cases stepped
      exact kept.appends there appending queued
    · cases stepped
  | put id =>
    obtain ⟨writer, there, stepped⟩ := Option.bind_eq_some_iff.mp stepped
    split at stepped
    · rename_i entry append putting
      cases stepped
      exact kept.puts there putting queued
    · cases stepped
  | publish id =>
    obtain ⟨writer, there, stepped⟩ := Option.bind_eq_some_iff.mp stepped
    split at stepped
    · rename_i entry append landed
      cases stepped
      exact kept.publishes short there landed queued
    · cases stepped
  | finish id =>
    obtain ⟨writer, there, stepped⟩ := Option.bind_eq_some_iff.mp stepped
    split at stepped
    · rename_i entry logged
      cases stepped
      exact kept.finishes there logged queued
    · cases stepped

end Node.Kept

end

theorem shows_fold {entries : List Entry} (rising : Rising groupSegments entries) :
    ∃ offsets, entries.foldlM applyOffset ∅ = .ok offsets ∧ Shows offsets entries := by
  induction entries using List.reverseRecOn with
  | nil => exact ⟨∅, rfl, .empty⟩
  | append_singleton entries entry ih =>
    obtain ⟨before, -, last⟩ := List.pairwise_append.mp rising
    obtain ⟨offsets, folded, shows_⟩ := ih before
    refine ⟨entry.val.record.apply entry.val.version offsets, ?_, ?_⟩
    · rw [foldlM_snoc, folded, bind_ok]
      rfl
    · refine (shows_.apply fun e among => ?_).congr fun e => ?_
      · exact (last e among entry (List.mem_singleton_self entry)).ne
      · rw [List.mem_append, List.mem_singleton, List.mem_cons, or_comm]

theorem cutOff_ended (writer : Writer) : writer.cutOff.phase.ended = true := by
  unfold Writer.cutOff
  split
  · assumption
  · rfl

theorem cutOff_of_ended {writer : Writer} (ended : writer.phase.ended = true) :
    writer.cutOff = writer := if_pos ended

namespace Node

variable {node next : Node}

/-- What the replays make of a log that the node's records are in. -/
theorem Kept.replayed (kept : node.Kept) : ∃ coordinator offsets,
    node.world.entries.foldlM Replaying.take {} = .ok ⟨coordinator, []⟩ ∧
      node.world.entries.foldlM applyOffset ∅ = .ok offsets ∧ Shows offsets node.world.entries := by
  obtain ⟨offsets, folded, shows_⟩ := shows_fold kept.stored.rising
  obtain ⟨waits, split, few, waiting⟩ := World.waiting kept.ordered
  have groups := kept.groups
  rw [foldlM_take] at groups
  have start : node.world.entries.foldlM Replaying.take {} =
      (waits.map Prod.snd).foldlM Replaying.take ⟨node.world.coordinator, []⟩ := by
    rw [foldlM_take, split, List.foldlM_append, groups, bind_ok]
  cases waits with
  | nil => exact ⟨node.world.coordinator, offsets, start, folded, shows_⟩
  | cons landed rest =>
    obtain rfl : rest = [] := List.length_eq_zero_iff.mp (by simpa using few)
    obtain ⟨among, -, unended⟩ := (waiting landed).mp List.mem_cons_self
    obtain ⟨writer, there, record, active⟩ := kept.held
      (show (landed.1, landed.2) ∈ node.world.line from among) unended
    obtain ⟨after, applied, -⟩ :=
      exists_applied landed.2.val.version (kept.legal there active)
    refine ⟨after.coordinator, offsets, ?_, folded, shows_⟩
    rw [start, List.map_cons, List.map_nil, List.foldlM_cons,
      take_of_applied (show _ = Except.ok after by rw [record]; exact applied), bind_ok]
    rfl

/-- A restart reads the whole log, if it may take that long. -/
theorem Kept.restart_eq (kept : node.Kept) (short : node.world.line.length < 2 ^ 64) :
    ∃ coordinator offsets, node.world.entries.foldlM Replaying.take {} = .ok ⟨coordinator, []⟩ ∧
      Shows offsets node.world.entries ∧ ∀ fuel, node.restart fuel =
        if node.world.line.length + 3 ≤ fuel then some {
          world := {
            store := node.world.store
            log := ⟨node.world.line.length, node.world.entries, none, 0, none, 0⟩
            coordinator
            offsets
            writers := fun id => (node.world.writers id).map Writer.cutOff
            line := node.world.line }
          cut := fun id => node.cut id ||
            (node.world.writers id).any fun writer => !writer.phase.ended }
        else none := by
  obtain ⟨coordinator, offsets, taken, folded, shows_⟩ := kept.replayed
  refine ⟨coordinator, offsets, taken, shows_, fun fuel => ?_⟩
  have length : node.world.entries.length = node.world.line.length := List.length_map _
  have opened := kept.stored.finish_eq (by omega) fuel
  rw [length] at opened
  unfold restart
  rw [opened]
  split
  · rename_i enough
    have pages {σ : Type} (step : σ → Entry → Except Error σ) (s : σ) :
        replayPages ⟨node.world.line.length, node.world.entries, none, 0, none, 0⟩ step fuel s =
          node.world.entries.foldlM step s :=
      replayPages_eq kept.stored.rising (fun entry among => by
        have := kept.stored.version_lt among
        unfold u64Max
        omega) (by dsimp only; omega) s
    have offsets' := pages applyOffset ∅
    have coordinator' := pages Replaying.take {}
    rw [folded] at offsets'
    rw [taken] at coordinator'
    unfold replayOffsets replayTransitions
    simp only [Option.bind_eq_bind, Except.toOption, Option.bind_some, offsets', coordinator',
      Except.map]
    rfl
  · rfl

theorem Kept.restart_ended (kept : node.Kept) (short : node.world.line.length < 2 ^ 64) {fuel : Nat}
    (restarted : node.restart fuel = some next) {id : Nat} {writer : Writer}
    (held : next.world.writers id = some writer) : writer.phase.ended = true := by
  obtain ⟨coordinator, offsets, -, -, restarts⟩ := kept.restart_eq short
  rw [restarts] at restarted
  split at restarted
  · cases restarted
    obtain ⟨before, -, rfl⟩ := Option.map_eq_some_iff.mp held
    exact cutOff_ended before
  · cases restarted

theorem Kept.isEnded_of_restart (kept : node.Kept) (short : node.world.line.length < 2 ^ 64)
    {fuel : Nat} (restarted : node.restart fuel = some next) {id : Nat}
    (landed : node.world.HasLanded id) : next.world.isEnded id = true := by
  obtain ⟨writer, there⟩ := Option.isSome_iff_exists.mp (kept.owned id landed)
  obtain ⟨coordinator, offsets, -, -, restarts⟩ := kept.restart_eq short
  rw [restarts] at restarted
  split at restarted
  · cases restarted
    unfold World.isEnded
    dsimp only
    rw [there]
    exact cutOff_ended writer
  · cases restarted

theorem Kept.restarts (kept : node.Kept) (short : node.world.line.length < 2 ^ 64) {fuel : Nat}
    (restarted : node.restart fuel = some next) : next.Kept := by
  have ended {id writer} := @Kept.restart_ended node next kept short fuel restarted id writer
  have landed {id} := @Kept.isEnded_of_restart node next kept short fuel restarted id
  obtain ⟨coordinator, offsets, taken, shows_, restarts⟩ := kept.restart_eq short
  rw [restarts] at restarted
  split at restarted
  swap
  · cases restarted
  have world := congrArg Node.world (Option.some.inj restarted)
  have cut := congrArg Node.cut (Option.some.inj restarted)
  dsimp only at world cut
  have line : next.world.line = node.world.line := by rw [← world]
  have log : next.world.log = ⟨node.world.line.length, node.world.entries, none, 0, none, 0⟩ := by
    rw [← world]
  have entries : next.world.entries = node.world.entries := congrArg (List.map Prod.snd) line
  have length : node.world.entries.length = node.world.line.length := List.length_map _
  have settled : next.world.settled = node.world.entries := by
    unfold World.settled
    rw [line, List.filter_eq_self.mpr fun item among => landed (hasLanded_of_mem among)]
    rfl
  refine ⟨?_, ?_, ?_, ?_, ?_, ?_, ?_, ?_, ?_, ?_, ?_, ?_, ?_⟩
  · rw [← world]
    exact ⟨List.nodup_nil, fun id among => absurd among List.not_mem_nil⟩
  · rw [entries, ← world]
    exact kept.stored
  · rw [log, entries, ← length, List.take_length]
  · rw [log, line]
  · rw [log, line]
    exact .inl rfl
  · rw [line]
    exact kept.once
  · intro id inside
    unfold World.HasLanded at inside
    rw [line] at inside
    rw [← world, Option.isSome_map]
    exact kept.owned id inside
  · intro id writer held
    rw [← world] at held
    obtain ⟨before, there, rfl⟩ := Option.map_eq_some_iff.mp held
    have fits := kept.fits id before there
    cases is : before.phase.ended with
    | true =>
      rw [cutOff_of_ended is]
      have uncut : next.cut id = node.cut id := by
        rw [← cut]
        dsimp only
        rw [there, Option.any_some, is]
        exact Bool.or_false _
      unfold Writer.Fits World.HasLanded at fits ⊢
      rw [uncut, line]
      cases phase : before.phase with
      | refused error => rwa [phase] at fits
      | answered answer =>
        rw [phase] at fits
        cases answer with
        | ok done => exact fits
        | error error => exact fits
      | _ => rw [phase] at is; cases is
    | false =>
      have was : next.cut id = true := by
        rw [← cut]
        dsimp only
        rw [there, Option.any_some, is]
        exact Bool.or_true _
      unfold Writer.cutOff
      rw [if_neg (by rw [is]; exact Bool.false_ne_true)]
      exact fun uncut => absurd (was.symm.trans uncut) (by decide)
  · intro id writer held _ active
    rw [Phase.not_active (ended held)] at active
    cases active
  · intro id serving
    rw [← world] at serving
    cases serving
  · rw [line]
    refine kept.ordered.imp_of_mem fun {first later} among _ _ unended => ?_
    rw [landed (hasLanded_of_mem (show (first.1, first.2) ∈ _ from among))] at unended
    cases unended
  · rw [settled, taken, ← world]
  · rw [settled, ← world]
    exact shows_

theorem Kept.start : start.Kept where
  queued := ⟨List.nodup_nil, fun _ among => absurd among List.not_mem_nil⟩
  stored := ⟨fun _ _ held => (by cases held), fun _ => rfl, fun _ => rfl⟩
  log := rfl
  le := le_rfl
  unread := .inl rfl
  once := List.nodup_nil
  owned := fun _ landed => absurd landed List.not_mem_nil
  fits := fun _ _ held => (by cases held)
  alone := fun _ _ held => (by cases held)
  serves := fun _ serving => (by cases serving)
  ordered := .nil
  groups := rfl
  offsets := .empty

theorem queued_step {event : Event} (stepped : node.step event = some next)
    (queued : node.world.Queued) :
    next.world.Queued ∧ node.world.line.length ≤ next.world.line.length := by
  cases event with
  | act action =>
    obtain ⟨world, moved, rfl⟩ := Option.map_eq_some_iff.mp stepped
    obtain ⟨id, after, -, queued', lands, -⟩ := World.step_advances queued moved
    refine ⟨queued', ?_⟩
    rcases lands with same | ⟨id, writer, entry, append, -, -, -, grown⟩
    · exact (congrArg List.length same).ge
    · rw [grown, List.length_append]
      exact Nat.le_add_right _ _
  | restart fuel =>
    obtain ⟨opened, -, stepped⟩ := Option.bind_eq_some_iff.mp stepped
    obtain ⟨log, -, stepped⟩ := Option.bind_eq_some_iff.mp stepped
    obtain ⟨offsets, -, stepped⟩ := Option.bind_eq_some_iff.mp stepped
    obtain ⟨coordinator, -, stepped⟩ := Option.bind_eq_some_iff.mp stepped
    cases stepped
    exact ⟨⟨List.nodup_nil, fun _ among => absurd among List.not_mem_nil⟩, le_rfl⟩

theorem Kept.step (kept : node.Kept) (short : node.world.line.length < 2 ^ 64) {event : Event}
    (stepped : node.step event = some next) : next.Kept := by
  cases event with
  | act action =>
    obtain ⟨world, moved, rfl⟩ := Option.map_eq_some_iff.mp stepped
    exact kept.world_step short moved
  | restart fuel => exact kept.restarts short stepped

/-- The log only grows, so that it was short enough all along. -/
theorem run_kept {events : List Event} (ran : Steps.run step node events = some next)
    (kept : node.Kept) (short : next.world.line.length < 2 ^ 64) : next.Kept := by
  let P (node : Node) := node.world.Queued ∧ (node.world.line.length < 2 ^ 64 → node.Kept)
  have keeps : ∀ s event t, P s → step s event = some t → P t := by
    rintro s event t ⟨queued, kept⟩ stepped
    obtain ⟨queued', le⟩ := queued_step stepped queued
    exact ⟨queued', fun short => (kept (le.trans_lt short)).step (le.trans_lt short) stepped⟩
  exact (Steps.run_invariant P keeps ⟨kept.queued, fun _ => kept⟩ ran).2 short

/-- The log holds what was answered, each record once and under the next version. A node that
starts reads all of it and can take every transition in it; and when every writer has been
answered, it has what the node before had. -/
theorem replay_exact {events : List Event} (ran : Steps.run step start events = some node)
    (short : node.world.line.length < 2 ^ 64) :
    node.world.line.map (fun landed => landed.2.val.version) =
        List.range node.world.line.length ∧
    (node.world.line.map Prod.fst).Nodup ∧
    (∀ id writer answer, node.world.writers id = some writer → writer.phase = .answered answer →
      node.cut id = false → ((∃ entry, (id, entry) ∈ node.world.line ∧
        entry.val.record = writer.record.val) ↔ answer = .ok ())) ∧
    ∃ next : Node, (∀ fuel, node.step (.restart fuel) =
        if node.world.line.length + 3 ≤ fuel then some next else none) ∧
      next.world.log.entries = node.world.line.map Prod.snd ∧
      (node.world.line.map Prod.snd).foldlM Replaying.take {} =
        .ok ⟨next.world.coordinator, []⟩ ∧
      Shows next.world.offsets (node.world.line.map Prod.snd) ∧
      ((∀ id writer, node.world.writers id = some writer → writer.phase.ended = true) →
        next.world.coordinator = node.world.coordinator ∧
        next.world.offsets = node.world.offsets) := by
  have kept := run_kept ran .start short
  refine ⟨?_, kept.once, ?_, ?_⟩
  · refine List.ext_getElem (by simp) fun i inside _ => ?_
    rw [List.length_map] at inside
    have there : node.world.entries[i]? = some node.world.line[i].2 := by
      unfold World.entries
      rw [List.getElem?_map, List.getElem?_eq_getElem inside]
      rfl
    rw [List.getElem_map, List.getElem_range]
    exact kept.stored.numbered i _ there
  · intro id writer answer held answered uncut
    have fits := kept.fits id writer held
    unfold Writer.Fits at fits
    rw [answered] at fits
    cases answer with
    | ok done => exact iff_of_true fits rfl
    | error error =>
      refine iff_of_false ?_ (by rintro ⟨⟩)
      rintro ⟨entry, among, -⟩
      exact fits uncut (hasLanded_of_mem among)
  · obtain ⟨coordinator, offsets, taken, shows_, restarts⟩ := kept.restart_eq short
    refine ⟨_, restarts, rfl, taken, shows_, fun all => ?_⟩
    have settled : node.world.settled = node.world.entries := by
      unfold World.settled
      rw [List.filter_eq_self.mpr fun item among => ?_]
      · rfl
      · obtain ⟨writer, there⟩ := Option.isSome_iff_exists.mp
          (kept.owned item.1 (hasLanded_of_mem (show (item.1, item.2) ∈ _ from among)))
        unfold World.isEnded
        rw [there]
        exact all _ _ there
    constructor
    · have groups := kept.groups
      rw [settled, taken] at groups
      exact congrArg Replaying.coordinator (Except.ok.inj groups)
    · have live := kept.offsets
      rw [settled] at live
      exact shows_.unique live

theorem firstJoin_typed : GroupSegment.RecordTyped (.groupTransitioned ⟨"g"⟩ .join) := rfl

theorem firstCommit_typed : GroupSegment.RecordTyped (.offsetCommitted ⟨"g"⟩ ⟨"t"⟩ 0 5) := by
  simp [GroupSegment.RecordTyped, TopicId.Typed]

/-- A group's first member joins and its transition is logged; the node stops before that is
applied, and the next one takes a commit. -/
def restartedRun : List Event :=
  [.act (.enqueue 0 ⟨_, firstJoin_typed⟩), .act .receive, .act (.read 0),
    .act (.append 0), .act (.put 0), .act (.publish 0), .restart 4,
    .act (.commit 1 ⟨_, firstCommit_typed⟩), .act (.read 1), .act (.append 1), .act (.put 1),
    .act (.publish 1), .act (.finish 1)]

theorem replay_exact_restarted : ∃ node, Steps.run step start restartedRun = some node ∧
    node.world.line.length = 2 ∧ ∃ next : Node, node.step (.restart 5) = some next ∧
      (node.world.line.map Prod.snd).foldlM Replaying.take {} =
        .ok ⟨next.world.coordinator, []⟩ := by
  have lines : (Steps.run step start restartedRun).map
      (fun node => node.world.line.length) = some 2 := by
    decide +kernel
  obtain ⟨node, ran, two⟩ := Option.map_eq_some_iff.mp lines
  obtain ⟨-, -, -, next, restarts, -, taken, -⟩ := replay_exact ran (by omega)
  refine ⟨node, ran, two, next, ?_, taken⟩
  rw [restarts, if_pos (by omega)]

end Node

end Oqueue.GroupLog
