import Oqueue.Crypto.UnwrapCache

/-!
# What an unwrapped key is used for

An entry's tick is the number of the last use of its blob, as far as a tick can count. So the
victim of an eviction is the blob whose last use is the oldest, until the ticks run out.
-/

namespace Oqueue.UnwrapCache

namespace Entries

variable {entries after : Entries} {id : BlobId} {entry : CachedDek}

theorem mem_of_get (found : entries.get id = some entry) : (id, entry) ∈ entries.byBlob := by
  unfold get at found
  rw [Option.map_eq_some_iff] at found
  obtain ⟨⟨id', entry⟩, look, rfl⟩ := found
  have same : id' = id := by simpa using List.find?_some look
  exact same ▸ List.mem_of_find?_eq_some look

theorem get_of_mem (nodup : (entries.byBlob.map Prod.fst).Nodup)
    (held : (id, entry) ∈ entries.byBlob) : entries.get id = some entry := by
  cases found : entries.get id with
  | none =>
    unfold get at found
    rw [Option.map_eq_none_iff, List.find?_eq_none] at found
    exact absurd (decide_eq_true rfl) (found _ held)
  | some other =>
    have same : (id, other) = (id, entry) :=
      List.inj_on_of_nodup_map nodup (mem_of_get found) held rfl
    cases same
    rfl

theorem mem_insert {item : BlobId × CachedDek} : item ∈ (entries.insert id entry).byBlob ↔
    item = (id, entry) ∨ (item ∈ entries.byBlob ∧ item.1 ≠ id) := by
  unfold insert remove
  simp

theorem nodup_insert (nodup : (entries.byBlob.map Prod.fst).Nodup) :
    ((entries.insert id entry).byBlob.map Prod.fst).Nodup := by
  have rest : ((entries.remove id).byBlob.map Prod.fst).Nodup :=
    nodup.sublist (List.filter_sublist.map _)
  refine List.nodup_cons.mpr ⟨?_, rest⟩
  intro member
  obtain ⟨item, member, same⟩ := List.mem_map.mp member
  unfold remove at member
  have differs := (List.mem_filter.mp member).2
  simp [same] at differs

theorem length_insert_le :
    (entries.insert id entry).byBlob.length ≤ entries.byBlob.length + 1 :=
  Nat.succ_le_succ (List.length_filter_le ..)

theorem length_remove_lt (held : (id, entry) ∈ entries.byBlob) :
    (entries.remove id).byBlob.length < entries.byBlob.length := by
  unfold remove
  dsimp only
  rw [List.length_filter_lt_length_iff_exists]
  exact ⟨_, held, by simp⟩

theorem length_insert_of_mem {old : CachedDek} (held : (id, old) ∈ entries.byBlob) :
    (entries.insert id entry).byBlob.length ≤ entries.byBlob.length :=
  Nat.succ_le_of_lt (length_remove_lt held)

theorem evict_spec {victims : List BlobId} (evicts : evict victims entries = some after) :
    after.byBlob.Sublist entries.byBlob ∧ after.nextUse = entries.nextUse ∧
      after.byBlob.length < maxEntries := by
  induction victims generalizing entries with
  | nil =>
    unfold evict at evicts
    split at evicts
    · cases evicts
    · rename_i room
      cases evicts
      exact ⟨List.Sublist.refl _, rfl, Nat.not_le.mp room⟩
  | cons victim rest ih =>
    unfold evict at evicts
    split at evicts
    · obtain ⟨less, same, room⟩ := ih evicts
      exact ⟨less.trans List.filter_sublist, same, room⟩
    · cases evicts

theorem isVictim_iff {victim : BlobId} : entries.isVictim victim = true ↔
    ∃ entry, entries.get victim = some entry ∧
      ∀ item ∈ entries.byBlob, entry.lastUsed ≤ item.2.lastUsed := by
  unfold isVictim
  cases entries.get victim with
  | none => simp
  | some entry => simp

end Entries

/-- The number of the last use of this blob, counting the uses from nought. -/
def lastUse : List Open → BlobId → Option Nat
  | [], _ => none
  | o :: rest, id => if o.id = id then some rest.length else lastUse rest id

theorem lastUse_lt {opens : List Open} {id : BlobId} {n : Nat}
    (last : lastUse opens id = some n) : n < opens.length := by
  induction opens with
  | nil => cases last
  | cons o rest ih =>
    unfold lastUse at last
    split at last
    · cases last
      exact Nat.lt_succ_self _
    · exact Nat.lt_succ_of_lt (ih last)

theorem lastUse_inj {opens : List Open} {id id' : BlobId} {n : Nat}
    (last : lastUse opens id = some n) (last' : lastUse opens id' = some n) : id = id' := by
  induction opens with
  | nil => cases last
  | cons o rest ih =>
    unfold lastUse at last last'
    split at last
    · rename_i same
      cases last
      split at last'
      · rename_i same'
        exact same.symm.trans same'
      · exact absurd (lastUse_lt last') (Nat.lt_irrefl _)
    · split at last'
      · cases last'
        exact absurd (lastUse_lt last) (Nat.lt_irrefl _)
      · exact ih last last'

/-- An entry is what the provider returned for its blob, and its tick is of the last use. -/
structure Backs (w : World) (item : BlobId × CachedDek) : Prop where
  returned : ⟨item.1, item.2.dek, item.2.unwrappedAt⟩ ∈ w.unwraps
  used : ∃ n, lastUse w.opens item.1 = some n ∧ item.2.lastUsed = min n u64Max

/-- A key that an open closure ran with was returned for the blob, not too long before. -/
structure Open.Bounded (o : Open) (unwraps : List Unwrap) : Prop where
  returned : ⟨o.id, o.dek, o.unwrappedAt⟩ ∈ unwraps
  young : o.now - o.unwrappedAt < ttlMs

namespace World

structure Kept (w : World) : Prop where
  nodup : (w.entries.byBlob.map Prod.fst).Nodup
  room : w.entries.byBlob.length ≤ maxEntries
  backs : ∀ item ∈ w.entries.byBlob, Backs w item
  next : w.entries.nextUse = min w.opens.length u64Max
  fetched : ∀ call id cached, w.calls call = .fetched id cached →
    ⟨id, cached.dek, cached.unwrappedAt⟩ ∈ w.unwraps
  opened : ∀ o ∈ w.opens, o.Bounded w.unwraps
  done : ∀ o ∈ w.opens, w.calls o.call = .done

variable {w next : World} {call : Nat} {id : BlobId} {now : Int} {entry : CachedDek}

theorem Kept.start (clock : Int) : Kept { clock } where
  nodup := List.nodup_nil
  room := Nat.zero_le _
  backs := fun _ member => by cases member
  next := rfl
  fetched := nofun
  opened := fun _ member => by cases member
  done := fun _ member => by cases member

theorem Kept.move (kept : w.Kept) {phase : Phase} (undone : w.calls call ≠ .done)
    (fetched : ∀ id cached, phase = .fetched id cached →
      ⟨id, cached.dek, cached.unwrappedAt⟩ ∈ w.unwraps) : (w.move call phase).Kept where
  nodup := kept.nodup
  room := kept.room
  backs := fun item member =>
    have backs := kept.backs item member
    ⟨backs.returned, backs.used⟩
  next := kept.next
  fetched := by
    intro other id cached at_
    unfold World.move at at_
    dsimp only at at_
    rcases eq_or_ne other call with rfl | differs
    · rw [Function.update_self] at at_
      exact fetched id cached at_
    · rw [Function.update_of_ne differs] at at_
      exact kept.fetched other id cached at_
  opened := kept.opened
  done := by
    intro o member
    have done := kept.done o member
    have differs : o.call ≠ call := by
      rintro rfl
      exact undone done
    exact (Function.update_of_ne differs ..).trans done

theorem young_of_freshAt (fresh : entry.freshAt now = true) : now - entry.unwrappedAt < ttlMs := by
  have young : saturatingSubI64 now entry.unwrappedAt < ttlMs := of_decide_eq_true fresh
  unfold saturatingSubI64 ttlMs at *
  omega

theorem freshAt_self {dek : Dek} {lastUsed : Nat} :
    (⟨dek, now, lastUsed⟩ : CachedDek).freshAt now = true := by
  unfold CachedDek.freshAt saturatingSubI64 ttlMs
  simp

theorem lastUse_cons {o : Open} {opens : List Open} (other : BlobId) :
    lastUse (o :: opens) other =
      if o.id = other then some opens.length else lastUse opens other := rfl

/-- Some of the entries, and a use of one that was returned for its blob and is fresh. -/
theorem Kept.openWith (kept : w.Kept) {entries : Entries}
    (less : entries.byBlob.Sublist w.entries.byBlob) (same : entries.nextUse = w.entries.nextUse)
    (room : (entries.insert id { entry with lastUsed := entries.nextUse }).byBlob.length ≤ maxEntries)
    (returned : ⟨id, entry.dek, entry.unwrappedAt⟩ ∈ w.unwraps) (fresh : entry.freshAt now = true)
    (undone : w.calls call ≠ .done) : (w.openWith entries call id now entry).Kept where
  nodup := Entries.nodup_insert (kept.nodup.sublist (less.map _))
  room := room
  backs := by
    intro item member
    unfold World.openWith at *
    rcases Entries.mem_insert.mp member with rfl | ⟨member, differs⟩
    · refine ⟨returned, w.opens.length, ?_, ?_⟩
      · rw [lastUse_cons, if_pos rfl]
      · exact same.trans kept.next
    · have backs := kept.backs item (less.subset member)
      obtain ⟨n, last, tick⟩ := backs.used
      refine ⟨backs.returned, n, ?_, tick⟩
      rw [lastUse_cons, if_neg (Ne.symm differs)]
      exact last
  next := by
    unfold World.openWith Entries.insert Entries.ticked saturatingAdd
    dsimp only
    rw [same, kept.next, List.length_cons]
    omega
  fetched := by
    intro other id' cached at_
    unfold World.openWith World.move at at_
    dsimp only at at_
    rcases eq_or_ne other call with rfl | elsewhere
    · rw [Function.update_self] at at_
      cases at_
    · rw [Function.update_of_ne elsewhere] at at_
      exact kept.fetched other id' cached at_
  opened := List.forall_mem_cons.mpr ⟨⟨returned, young_of_freshAt fresh⟩, kept.opened⟩
  done := by
    unfold World.openWith World.move
    dsimp only
    refine List.forall_mem_cons.mpr ⟨Function.update_self .., fun o member => ?_⟩
    have done := kept.done o member
    have elsewhere : o.call ≠ call := by
      rintro rfl
      exact undone done
    exact (Function.update_of_ne elsewhere ..).trans done

theorem Kept.useFresh (kept : w.Kept) (at_ : w.calls call = .looking id now) :
    (w.useFresh call id now).Kept := by
  have undone : w.calls call ≠ .done := by
    rw [at_]
    exact nofun
  have missed : (w.move call (.unwrapping id)).Kept := kept.move undone nofun
  unfold World.useFresh
  split
  · exact missed
  · rename_i entry found
    have member := Entries.mem_of_get found
    split
    · rename_i fresh
      exact kept.openWith (List.Sublist.refl _) rfl
        (Nat.le_trans (Entries.length_insert_of_mem member) kept.room)
        (kept.backs _ member).returned fresh undone
    · exact {
        nodup := missed.nodup.sublist (List.filter_sublist.map _)
        room := Nat.le_trans (List.length_filter_le ..) missed.room
        backs := fun item member =>
          have backs := missed.backs item (List.mem_filter.mp member).1
          ⟨backs.returned, backs.used⟩
        next := missed.next
        fetched := missed.fetched
        opened := missed.opened
        done := missed.done }

/-- What installing leaves is the room that was made, and one entry, which is fresh. -/
theorem install_spec {cached : CachedDek} {victims : List BlobId}
    (returned : ⟨id, cached.dek, cached.unwrappedAt⟩ ∈ w.unwraps) (kept : w.Kept)
    (installs : w.install call id cached victims = some next) :
    ∃ entries entry, w.entries.makeRoom cached.unwrappedAt victims = some entries ∧
      next = w.openWith entries call id cached.unwrappedAt entry ∧
      ⟨id, entry.dek, entry.unwrappedAt⟩ ∈ w.unwraps ∧
      entry.freshAt cached.unwrappedAt = true := by
  unfold World.install at installs
  dsimp only at installs
  obtain ⟨entries, made, installs⟩ := Option.bind_eq_some_iff.mp installs
  refine ⟨entries, ?_⟩
  have less : entries.byBlob.Sublist w.entries.byBlob :=
    (Entries.evict_spec made).1.trans List.filter_sublist
  cases found : entries.get id with
  | none =>
    rw [found] at installs
    cases installs
    exact ⟨cached, made, rfl, returned, freshAt_self⟩
  | some entry =>
    rw [found] at installs
    dsimp only at installs
    split at installs
    · rename_i fresh
      cases installs
      have member := less.subset (Entries.mem_of_get found)
      exact ⟨entry, made, rfl, (kept.backs _ member).returned, fresh⟩
    · cases installs
      exact ⟨cached, made, rfl, returned, freshAt_self⟩

theorem Kept.install {cached : CachedDek} {victims : List BlobId} (kept : w.Kept)
    (at_ : w.calls call = .fetched id cached)
    (installs : w.install call id cached victims = some next) : next.Kept := by
  have undone : w.calls call ≠ .done := by
    rw [at_]
    exact nofun
  obtain ⟨entries, entry, made, rfl, returned, fresh⟩ :=
    install_spec (kept.fetched call id cached at_) kept installs
  obtain ⟨less, same, room⟩ := Entries.evict_spec made
  exact kept.openWith (less.trans List.filter_sublist) same
    (Nat.le_trans Entries.length_insert_le room) returned fresh undone

theorem kept_step {action : Action} (kept : w.Kept) (stepped : w.step action = some next) :
    next.Kept := by
  cases action with
  | tick now =>
    dsimp only [World.step] at stepped
    split at stepped
    · cases stepped
      exact ⟨kept.nodup, kept.room, fun item member => ⟨(kept.backs item member).returned,
        (kept.backs item member).used⟩, kept.next, kept.fetched, kept.opened, kept.done⟩
    · cases stepped
  | call call id =>
    dsimp only [World.step] at stepped
    split at stepped
    · rename_i at_
      cases stepped
      exact kept.move (by rw [at_]; exact nofun) nofun
    · cases stepped
  | useFresh call =>
    dsimp only [World.step] at stepped
    split at stepped
    · rename_i at_
      cases stepped
      exact kept.useFresh at_
    · cases stepped
  | unwrap call answer =>
    dsimp only [World.step] at stepped
    split at stepped
    · rename_i id at_
      have undone : w.calls call ≠ .done := by
        rw [at_]
        exact nofun
      split at stepped
      · cases stepped
        exact kept.move undone nofun
      · rename_i dek _
        cases stepped
        let returned : World := { w with unwraps := ⟨id, dek, w.clock⟩ :: w.unwraps }
        have more : returned.Kept := {
          nodup := kept.nodup
          room := kept.room
          backs := fun item member =>
            have backs := kept.backs item member
            ⟨List.mem_cons_of_mem _ backs.returned, backs.used⟩
          next := kept.next
          fetched := fun other id' cached at' =>
            List.mem_cons_of_mem _ (kept.fetched other id' cached at')
          opened := fun o member =>
            have opened := kept.opened o member
            ⟨List.mem_cons_of_mem _ opened.returned, opened.young⟩
          done := kept.done }
        apply more.move undone
        rintro _ _ ⟨⟩
        exact List.mem_cons_self
    · cases stepped
  | install call victims =>
    dsimp only [World.step] at stepped
    split at stepped
    · rename_i at_
      exact kept.install at_ stepped
    · cases stepped
  | drop call =>
    dsimp only [World.step] at stepped
    split at stepped
    · rename_i at_
      cases stepped
      exact kept.move (by rw [at_]; exact nofun) nofun
    · cases stepped

theorem kept_run {actions : List Action} {s : World} (kept : s.Kept)
    (ran : Steps.run World.step s actions = some w) : w.Kept :=
  Steps.run_invariant World.Kept (fun _ _ _ kept stepped => kept_step kept stepped) kept ran

/-- Room is made by evicting one entry at the most, and no other was used before it last was,
as far as ticks can count. -/
theorem evicts_oldest {victims : List BlobId} {entries : Entries} (kept : w.Kept)
    (made : w.entries.makeRoom now victims = some entries) : victims.length ≤ 1 ∧
      ∀ victim ∈ victims, ∃ n, lastUse w.opens victim = some n ∧
        ∀ item ∈ (w.entries.retain now).byBlob, item.1 ≠ victim →
          ∃ m, lastUse w.opens item.1 = some m ∧ (n < m ∨ u64Max ≤ n) := by
  have retained : ∀ item ∈ (w.entries.retain now).byBlob, Backs w item :=
    fun item member => kept.backs item (List.mem_filter.mp member).1
  have room : (w.entries.retain now).byBlob.length ≤ maxEntries :=
    Nat.le_trans (List.length_filter_le ..) kept.room
  unfold Entries.makeRoom at made
  cases victims with
  | nil => exact ⟨Nat.zero_le _, fun _ member => by cases member⟩
  | cons victim rest =>
    unfold Entries.evict at made
    split at made
    · rename_i full
      obtain ⟨entry, found, least⟩ := Entries.isVictim_iff.mp full.2
      have held := Entries.mem_of_get found
      have fewer : ((w.entries.retain now).remove victim).byBlob.length < maxEntries :=
        Nat.lt_of_lt_of_le (Entries.length_remove_lt held) room
      have last : rest = [] := by
        cases rest with
        | nil => rfl
        | cons _ _ =>
          unfold Entries.evict at made
          rw [if_neg fun more => Nat.not_le.mpr fewer more.1] at made
          cases made
      subst last
      refine ⟨Nat.le_refl _, ?_⟩
      rintro victim (_ | ⟨_, ⟨⟩⟩)
      obtain ⟨n, used, tick⟩ := (retained _ held).used
      refine ⟨n, used, fun item member differs => ?_⟩
      obtain ⟨m, used', tick'⟩ := (retained item member).used
      refine ⟨m, used', ?_⟩
      have order : entry.lastUsed ≤ item.2.lastUsed := least item member
      rw [tick, tick'] at order
      have apart : n ≠ m := by
        rintro rfl
        exact differs (lastUse_inj used' used)
      omega
    · cases made

/-- There is always an entry to evict where there is no room, and one is enough. -/
theorem exists_victims (kept : w.Kept) (now : Int) :
    ∃ victims entries, w.entries.makeRoom now victims = some entries := by
  have room : (w.entries.retain now).byBlob.length ≤ maxEntries :=
    Nat.le_trans (List.length_filter_le ..) kept.room
  rcases Nat.lt_or_ge (w.entries.retain now).byBlob.length maxEntries with less | full
  · exact ⟨[], _, if_neg (Nat.not_le.mpr less)⟩
  · have some_ : (w.entries.retain now).byBlob.toFinset.Nonempty := by
      rw [List.toFinset_nonempty_iff]
      exact List.ne_nil_of_length_pos (Nat.lt_of_lt_of_le (by decide) full)
    obtain ⟨⟨victim, entry⟩, held, least⟩ :=
      Finset.exists_min_image _ (fun item => item.2.lastUsed) some_
    rw [List.mem_toFinset] at held
    have nodup : ((w.entries.retain now).byBlob.map Prod.fst).Nodup :=
      kept.nodup.sublist (List.filter_sublist.map _)
    have isVictim : (w.entries.retain now).isVictim victim = true :=
      Entries.isVictim_iff.mpr ⟨entry, Entries.get_of_mem nodup held,
        fun item member => least item (List.mem_toFinset.mpr member)⟩
    have fewer : ((w.entries.retain now).remove victim).byBlob.length < maxEntries :=
      Nat.lt_of_lt_of_le (Entries.length_remove_lt held) room
    refine ⟨[victim], (w.entries.retain now).remove victim, ?_⟩
    exact (if_pos ⟨full, isVictim⟩).trans (if_neg (Nat.not_le.mpr fewer))

theorem exists_install {cached : CachedDek} {victims : List BlobId} {entries : Entries}
    (at_ : w.calls call = .fetched id cached)
    (made : w.entries.makeRoom cached.unwrappedAt victims = some entries) :
    ∃ next, w.step (.install call victims) = some next := by
  dsimp only [World.step]
  rw [at_]
  unfold World.install
  dsimp only
  rw [made, Option.bind_eq_bind, Option.bind_some]
  split
  · split
    · exact ⟨_, rfl⟩
    · exact ⟨_, rfl⟩
  · exact ⟨_, rfl⟩

end World

/-- Whatever the order of the calls and of what the provider answers, an open closure runs with
what the provider returned for its blob, not longer before than an entry is kept. An insert can
always make room, evicts one entry at the most, of the oldest last use as far as ticks can count,
and leaves no more entries than there may be, none of them expired. A call that is refused opens
nothing and inserts nothing. -/
theorem unwrapped_keys_expire (clock : Int) (actions : List Action) (w : World)
    (ran : Steps.run World.step { clock } actions = some w) :
    (∀ o ∈ w.opens, o.Bounded w.unwraps) ∧
    (∀ call id cached, w.calls call = .fetched id cached →
      (∃ victims next, w.step (.install call victims) = some next) ∧
      ∀ victims next, w.step (.install call victims) = some next →
        next.entries.byBlob.length ≤ maxEntries ∧
        (next.entries.byBlob.map Prod.fst).Nodup ∧
        (∀ item ∈ next.entries.byBlob, cached.unwrappedAt - item.2.unwrappedAt < ttlMs) ∧
        victims.length ≤ 1 ∧
        ∀ victim ∈ victims, ∃ n, lastUse w.opens victim = some n ∧
          ∀ item ∈ (w.entries.retain cached.unwrappedAt).byBlob, item.1 ≠ victim →
            ∃ m, lastUse w.opens item.1 = some m ∧ (n < m ∨ u64Max ≤ n)) ∧
    (∀ call answer next, answer.bind Dek.fromSlice = none →
      w.step (.unwrap call answer) = some next → next = w.move call .failed) ∧
    ∀ call, w.calls call = .failed → ∀ o ∈ w.opens, o.call ≠ call := by
  have kept := World.kept_run (World.Kept.start clock) ran
  refine ⟨kept.opened, fun call id cached at_ => ⟨?_, fun victims next stepped => ?_⟩, ?_, ?_⟩
  · obtain ⟨victims, entries, made⟩ := World.exists_victims kept cached.unwrappedAt
    exact ⟨victims, World.exists_install at_ made⟩
  · have kept' := World.kept_step kept stepped
    dsimp only [World.step] at stepped
    rw [at_] at stepped
    obtain ⟨entries, entry, made, rfl, -, fresh⟩ :=
      World.install_spec (kept.fetched call id cached at_) kept stepped
    obtain ⟨few, oldest⟩ := World.evicts_oldest kept made
    refine ⟨kept'.room, kept'.nodup, fun item member => ?_, few, oldest⟩
    rcases Entries.mem_insert.mp member with rfl | ⟨member, -⟩
    · exact World.young_of_freshAt fresh
    · have retained := (Entries.evict_spec made).1.subset member
      exact World.young_of_freshAt (List.mem_filter.mp retained).2
  · intro call answer next refused stepped
    dsimp only [World.step] at stepped
    split at stepped
    · rw [refused] at stepped
      cases stepped
      rfl
    · cases stepped
  · rintro call failed o member rfl
    have done := kept.done o member
    rw [failed] at done
    cases done

/-- One blob unwrapped, installed and used, and used once more. -/
def twoUses : List Action :=
  let id : BlobId := ⟨.k, [7]⟩
  [.call 0 id, .useFresh 0, .unwrap 0 (some (List.replicate 32 1)), .install 0 [], .call 1 id,
    .useFresh 1]

theorem twoUses_expire : ∃ w, Steps.run World.step { clock := 5 } twoUses = some w ∧
    w.opens.length = 2 ∧ ∀ o ∈ w.opens, o.Bounded w.unwraps :=
  ⟨_, rfl, rfl, (unwrapped_keys_expire 5 twoUses _ rfl).1⟩

def blob (i : Nat) : BlobId := ⟨.k, List.replicate i 0⟩

theorem blob_inj {i j : Nat} (same : blob i = blob j) : i = j := by
  have lengths := congrArg (fun id => id.wrapped.length) same
  unfold blob at lengths
  rwa [List.length_replicate, List.length_replicate] at lengths

namespace World

/-- The first blobs are held, at a clock that stands still, and calls are left from a number on. -/
structure Holds (w : World) (count calls : Nat) : Prop where
  kept : w.Kept
  clock : w.clock = 0
  unborn : ∀ call, calls ≤ call → w.calls call = .unborn
  fresh : ∀ item ∈ w.entries.byBlob, item.2.unwrappedAt = 0
  ids : ∀ id, id ∈ w.entries.byBlob.map Prod.fst ↔ ∃ i < count, id = blob i

variable {w next : World} {count calls : Nat}

theorem Holds.length (holds : w.Holds count calls) : w.entries.byBlob.length = count := by
  have nodup : ((List.range count).map blob).Nodup :=
    List.nodup_range.map fun _ _ same => blob_inj same
  have perm : (w.entries.byBlob.map Prod.fst).Perm ((List.range count).map blob) := by
    rw [List.perm_ext_iff_of_nodup holds.kept.nodup nodup]
    intro id
    rw [holds.ids, List.mem_map]
    simp only [List.mem_range, eq_comm]
  simpa using perm.length_eq

theorem Holds.retain (holds : w.Holds count calls) : w.entries.retain 0 = w.entries := by
  have all : w.entries.byBlob.filter (fun item => item.2.freshAt 0) = w.entries.byBlob := by
    rw [List.filter_eq_self]
    intro item member
    unfold CachedDek.freshAt
    rw [holds.fresh item member]
    decide
  unfold Entries.retain
  rw [all]

/-- A use at the standing clock. -/
theorem Holds.openWith (holds : w.Holds count calls) {i call : Nat} {entry : CachedDek}
    (next_ : i ≤ count) (older : call < calls) (fresh : entry.unwrappedAt = 0)
    (kept : (w.openWith w.entries call (blob i) 0 entry).Kept) :
    (w.openWith w.entries call (blob i) 0 entry).Holds (max count (i + 1)) calls where
  kept := kept
  clock := holds.clock
  unborn := fun other later => (Function.update_of_ne (by omega) ..).trans (holds.unborn other later)
  fresh := by
    intro item member
    rcases Entries.mem_insert.mp member with rfl | ⟨member, -⟩
    · exact fresh
    · exact holds.fresh item member
  ids := by
    intro id
    constructor
    · intro member
      obtain ⟨item, held, rfl⟩ := List.mem_map.mp member
      rcases Entries.mem_insert.mp held with rfl | ⟨member, -⟩
      · exact ⟨i, by omega, rfl⟩
      · obtain ⟨j, less, same⟩ := (holds.ids _).mp (List.mem_map_of_mem member)
        exact ⟨j, by omega, same⟩
    · rintro ⟨j, less, rfl⟩
      rcases eq_or_ne (blob j) (blob i) with same | differs
      · rw [same]
        exact List.mem_map_of_mem (Entries.mem_insert.mpr (.inl rfl))
      · have before : j < count := by
          have apart : j ≠ i := by
            rintro rfl
            exact differs rfl
          omega
        obtain ⟨item, member, same⟩ := List.mem_map.mp ((holds.ids _).mpr ⟨j, before, rfl⟩)
        refine List.mem_map.mpr ⟨item, Entries.mem_insert.mpr (.inr ⟨member, ?_⟩), same⟩
        rw [same]
        exact differs

theorem Holds.hit (holds : w.Holds count calls) {i : Nat} (among : i < count) :
    ∃ call entry, ∃ mid : World, mid.entries = w.entries ∧ mid.opens = w.opens ∧
      Steps.run World.step w [.call calls (blob i), .useFresh calls] =
        some (mid.openWith mid.entries call (blob i) 0 entry) ∧
      (mid.openWith mid.entries call (blob i) 0 entry).Holds count (calls + 1) := by
  obtain ⟨⟨_, entry⟩, member, rfl⟩ := List.mem_map.mp ((holds.ids _).mpr ⟨i, among, rfl⟩)
  have found := Entries.get_of_mem holds.kept.nodup member
  have fresh : entry.freshAt 0 = true := by
    unfold CachedDek.freshAt
    rw [holds.fresh _ member]
    decide
  have called : w.step (.call calls (blob i)) = some (w.move calls (.looking (blob i) 0)) := by
    dsimp only [World.step]
    rw [holds.unborn calls (Nat.le_refl _), holds.clock]
  have used : (w.move calls (.looking (blob i) 0)).step (.useFresh calls) = some
      ((w.move calls (.looking (blob i) 0)).openWith w.entries calls (blob i) 0 entry) := by
    dsimp only [World.step, World.move]
    rw [Function.update_self]
    dsimp only [World.useFresh]
    rw [found]
    exact congrArg some (if_pos fresh)
  have kept' := kept_step holds.kept called
  have held : (w.move calls (.looking (blob i) 0)).Holds count (calls + 1) := {
    kept := kept'
    clock := holds.clock
    unborn := fun other later =>
      (Function.update_of_ne (by omega) ..).trans (holds.unborn other (by omega))
    fresh := holds.fresh
    ids := holds.ids }
  refine ⟨calls, entry, w.move calls (.looking (blob i) 0), rfl, rfl,
    Steps.run_cons.mpr ⟨_, called, Steps.run_cons.mpr ⟨_, used, rfl⟩⟩, ?_⟩
  have after := held.openWith among.le (Nat.lt_succ_self _) (holds.fresh _ member)
    (kept_step kept' used)
  rwa [Nat.max_eq_left among] at after

theorem Holds.absent (holds : w.Holds count calls) : w.entries.get (blob count) = none := by
  cases found : w.entries.get (blob count) with
  | none => rfl
  | some entry =>
    have member : (blob count, entry).1 ∈ w.entries.byBlob.map Prod.fst :=
      List.mem_map_of_mem (Entries.mem_of_get found)
    obtain ⟨j, less, same⟩ := (holds.ids _).mp member
    exact absurd (blob_inj same) less.ne'

/-- A blob not held is unwrapped, and its call goes on to install it. -/
theorem Holds.fetch (holds : w.Holds count calls) : ∃ cached, ∃ mid : World,
    Steps.run World.step w [.call calls (blob count), .useFresh calls,
      .unwrap calls (some (List.replicate 32 0))] = some mid ∧ mid.Holds count (calls + 1) ∧
      mid.calls calls = .fetched (blob count) cached ∧ cached.unwrappedAt = 0 ∧
      mid.entries = w.entries ∧ mid.opens = w.opens := by
  have called : w.step (.call calls (blob count)) =
      some (w.move calls (.looking (blob count) 0)) := by
    dsimp only [World.step]
    rw [holds.unborn calls (Nat.le_refl _), holds.clock]
  let asked := (w.move calls (.looking (blob count) 0)).move calls (.unwrapping (blob count))
  have missed : (w.move calls (.looking (blob count) 0)).step (.useFresh calls) = some asked := by
    dsimp only [World.step, World.move]
    rw [Function.update_self]
    dsimp only [World.useFresh]
    rw [holds.absent]
    rfl
  let dek : Dek := ⟨List.replicate 32 0, rfl⟩
  let mid : World := { asked.move calls (.fetched (blob count) ⟨dek, asked.clock, 0⟩) with
    unwraps := ⟨blob count, dek, asked.clock⟩ :: asked.unwraps }
  have answered : asked.step (.unwrap calls (some (List.replicate 32 0))) = some mid := by
    have at_ : asked.calls calls = .unwrapping (blob count) := Function.update_self ..
    dsimp only [World.step]
    rw [at_]
    rfl
  have ran : Steps.run World.step w [.call calls (blob count), .useFresh calls,
      .unwrap calls (some (List.replicate 32 0))] = some mid :=
    Steps.run_cons.mpr ⟨_, called, Steps.run_cons.mpr ⟨_, missed,
      Steps.run_cons.mpr ⟨_, answered, rfl⟩⟩⟩
  refine ⟨⟨dek, asked.clock, 0⟩, mid, ran, ?_, Function.update_self .., holds.clock, rfl, rfl⟩
  exact {
    kept := kept_run holds.kept ran
    clock := holds.clock
    unborn := by
      intro other later
      have elsewhere : other ≠ calls := by omega
      have before := holds.unborn other (by omega)
      change Function.update (Function.update (Function.update w.calls calls _) calls _) calls _
        other = _
      rw [Function.update_of_ne elsewhere, Function.update_of_ne elsewhere,
        Function.update_of_ne elsewhere]
      exact before
    fresh := holds.fresh
    ids := holds.ids }

theorem Holds.install (holds : w.Holds count calls) {call : Nat} {cached : CachedDek}
    (older : call < calls) (at_ : w.calls call = .fetched (blob count) cached)
    (now : cached.unwrappedAt = 0) (room : count < maxEntries) :
    w.step (.install call []) = some (w.openWith w.entries call (blob count) 0 cached) ∧
      (w.openWith w.entries call (blob count) 0 cached).Holds (count + 1) calls := by
  have made : w.entries.makeRoom 0 [] = some w.entries := by
    unfold Entries.makeRoom
    rw [holds.retain]
    refine if_neg ?_
    rw [holds.length]
    exact Nat.not_le.mpr room
  have stepped : w.step (.install call []) =
      some (w.openWith w.entries call (blob count) 0 cached) := by
    dsimp only [World.step]
    rw [at_]
    unfold World.install
    dsimp only
    rw [now, made, Option.bind_eq_bind, Option.bind_some, holds.absent]
    rfl
  have after := holds.openWith (Nat.le_refl count) older now (kept_step holds.kept stepped)
  rw [Nat.max_eq_right (Nat.le_succ count)] at after
  exact ⟨stepped, after⟩

def Reaches (s t : World) : Prop := ∃ actions, Steps.run World.step s actions = some t

theorem Reaches.trans {s mid t : World} (first : s.Reaches mid) (second : mid.Reaches t) :
    s.Reaches t := by
  obtain ⟨before, ran⟩ := first
  obtain ⟨after, ran'⟩ := second
  refine ⟨before ++ after, ?_⟩
  rw [Steps.run_append, ran]
  exact ran'

theorem Reaches.of_step {action : Action} (stepped : w.step action = some next) :
    w.Reaches next := ⟨[action], Steps.run_cons.mpr ⟨_, stepped, rfl⟩⟩

/-- The ticks have run out, and the last blob held was used last. -/
structure Tied (w : World) (count calls : Nat) : Prop where
  holds : w.Holds count calls
  next : w.entries.nextUse = u64Max
  ticks : ∀ item ∈ w.entries.byBlob, item.2.lastUsed = u64Max
  last : ∃ o rest, w.opens = o :: rest ∧ o.id = blob (count - 1)

theorem Holds.hits (holds : w.Holds 1 calls) (n : Nat) : ∃ next : World, ∃ calls',
    w.Reaches next ∧ next.Holds 1 calls' ∧ next.opens.length = w.opens.length + n := by
  induction n with
  | zero => exact ⟨w, calls, ⟨[], rfl⟩, holds, rfl⟩
  | succ n ih =>
    obtain ⟨next, calls', reaches, held, length⟩ := ih
    obtain ⟨call, entry, mid, -, opens, hit, held'⟩ := held.hit Nat.one_pos
    refine ⟨_, _, reaches.trans ⟨_, hit⟩, held', ?_⟩
    unfold World.openWith
    dsimp only
    rw [opens, List.length_cons, length]
    omega

theorem nextUse_openWith {call : Nat} {id : BlobId} {entry : CachedDek} {entries : Entries}
    (saturated : entries.nextUse = u64Max) :
    (w.openWith entries call id 0 entry).entries.nextUse = u64Max := by
  unfold World.openWith Entries.insert Entries.ticked saturatingAdd
  dsimp only
  rw [saturated]
  omega

theorem exists_tied : ∃ next : World, ∃ calls,
    Reaches { clock := 0 } next ∧ next.Tied 1 calls := by
  have none_ : Holds { clock := 0 } 0 0 := {
    kept := Kept.start 0
    clock := rfl
    unborn := fun _ _ => rfl
    fresh := fun _ member => by cases member
    ids := by simp }
  obtain ⟨cached, mid, ran, held, at_, now, -, -⟩ := none_.fetch
  obtain ⟨stepped, one⟩ := held.install (by decide) at_ now (by decide)
  obtain ⟨many, calls, reaches, held', length⟩ := one.hits u64Max
  obtain ⟨call, entry, last, entries, opens, hit, held''⟩ := held'.hit Nat.one_pos
  have saturated : last.entries.nextUse = u64Max := by
    rw [entries, held'.kept.next, length]
    omega
  have start : Reaches { clock := 0 } mid := ⟨_, ran⟩
  refine ⟨_, _, start.trans ((Reaches.of_step stepped).trans (reaches.trans ⟨_, hit⟩)), held'',
    nextUse_openWith saturated, ?_, _, _, rfl, rfl⟩
  intro item member
  rcases Entries.mem_insert.mp member with rfl | ⟨among, differs⟩
  · exact saturated
  · obtain ⟨i, less, same⟩ := (held''.ids _).mp (List.mem_map_of_mem member)
    obtain rfl := Nat.lt_one_iff.mp less
    exact absurd same differs

theorem Tied.fill (tied : w.Tied count calls) (room : count < maxEntries) :
    ∃ next : World, w.Reaches next ∧ next.Tied (count + 1) (calls + 1) := by
  obtain ⟨cached, mid, ran, held, at_, now, entries, opens⟩ := tied.holds.fetch
  obtain ⟨stepped, held'⟩ := held.install (Nat.lt_succ_self _) at_ now room
  have saturated : mid.entries.nextUse = u64Max := entries ▸ tied.next
  have reaches : w.Reaches mid := ⟨_, ran⟩
  refine ⟨_, reaches.trans (Reaches.of_step stepped), held', nextUse_openWith saturated, ?_, _, _,
    rfl, rfl⟩
  intro item member
  rcases Entries.mem_insert.mp member with rfl | ⟨among, -⟩
  · exact saturated
  · exact tied.ticks item (entries ▸ among)

theorem Tied.fills (tied : w.Tied 1 calls) (n : Nat) (room : n < maxEntries) :
    ∃ next : World, w.Reaches next ∧ next.Tied (n + 1) (calls + n) := by
  induction n with
  | zero => exact ⟨w, ⟨[], rfl⟩, tied⟩
  | succ n ih =>
    obtain ⟨next, reaches, tied'⟩ := ih (Nat.lt_of_succ_lt room)
    obtain ⟨after, reaches', tied''⟩ := tied'.fill room
    exact ⟨after, reaches.trans reaches', tied''⟩

end World

/-- After as many uses as a tick can count, an eviction may take the blob used last. -/
theorem evicted_though_newest : ∃ w call id cached victim next,
    World.Reaches { clock := 0 } w ∧ w.calls call = .fetched id cached ∧
      w.step (.install call [victim]) = some next ∧
      ∃ item ∈ (w.entries.retain cached.unwrappedAt).byBlob, item.1 ≠ victim ∧
        ∃ n m, lastUse w.opens victim = some n ∧ lastUse w.opens item.1 = some m ∧ m < n := by
  obtain ⟨one, calls, reaches, tied⟩ := World.exists_tied
  obtain ⟨full, reaches', tied'⟩ := tied.fills 1023 (by decide)
  obtain ⟨cached, w, ran, held, at_, now, entries, opens⟩ := tied'.holds.fetch
  have reaches'' : full.Reaches w := ⟨_, ran⟩
  have retained : w.entries.retain 0 = w.entries := held.retain
  obtain ⟨⟨_, newest⟩, member, rfl⟩ := List.mem_map.mp ((held.ids _).mpr ⟨1023, by decide, rfl⟩)
  obtain ⟨⟨_, oldest⟩, member', rfl⟩ := List.mem_map.mp ((held.ids _).mpr ⟨0, by decide, rfl⟩)
  have isVictim : w.entries.isVictim (blob 1023) = true := by
    refine Entries.isVictim_iff.mpr ⟨newest, Entries.get_of_mem held.kept.nodup member, ?_⟩
    intro item among
    have tick : newest.lastUsed = u64Max := tied'.ticks _ (entries ▸ member)
    rw [tick, tied'.ticks item (entries ▸ among)]
  have length : w.entries.byBlob.length = maxEntries := held.length
  have fewer : (w.entries.remove (blob 1023)).byBlob.length < maxEntries :=
    Nat.lt_of_lt_of_le (Entries.length_remove_lt member) length.le
  have made : w.entries.makeRoom 0 [blob 1023] = some (w.entries.remove (blob 1023)) := by
    unfold Entries.makeRoom
    rw [retained]
    exact (if_pos ⟨length.ge, isVictim⟩).trans (if_neg (Nat.not_le.mpr fewer))
  obtain ⟨next, stepped⟩ := World.exists_install at_ (now.symm ▸ made)
  have apart : blob 0 ≠ blob 1023 := fun same => absurd (blob_inj same) (by decide)
  obtain ⟨o, rest, whole, used⟩ := tied'.last
  have last : lastUse w.opens (blob 1023) = some rest.length := by
    rw [opens, whole, World.lastUse_cons, if_pos used]
  obtain ⟨m, before, -⟩ := (held.kept.backs _ member').used
  have less : m < rest.length := by
    rw [opens, whole, World.lastUse_cons, if_neg fun same => apart (same.symm.trans used)] at before
    exact lastUse_lt before
  refine ⟨w, _, _, cached, blob 1023, next, reaches.trans (reaches'.trans reaches''), at_, stepped,
    (blob 0, oldest), ?_, apart, _, m, last, before, less⟩
  rw [now, retained]
  exact member'

end Oqueue.UnwrapCache
