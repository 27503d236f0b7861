import Oqueue.Broker.Dispatch

/-!
# When the topic lifecycle lock stops the broker

Whoever waits for the lock waits for those before it and for those who hold it, and these go
on by themselves unless they wait for the lock too. Only a request that creates a topic does
both: it holds the read side and asks for it again. So the one thing to avoid is that it asks
behind a writer that waits without a deadline, which in turn waits for it.
-/

namespace Oqueue

namespace Dispatch

/-- What a move changes of what a request holds and waits for. -/
def Move.Fits (before : Place) : Move → Prop
  | .goes place => place.waits = none ∧ place.reads = before.reads ∧ place.writes = before.writes
  | .asks side place => place.waits = some side ∧ place.reads = before.reads ∧
    place.writes = before.writes
  | .lets .read place => place.waits = none ∧ before.reads = place.reads + 1 ∧
    place.writes = before.writes
  | .lets .write place => place.waits = none ∧ place.reads = before.reads ∧
    before.writes = true ∧ place.writes = false

/-- What a grant of this side changes of what a request holds and waits for. -/
def Place.Given (before after : Place) : Side → Prop
  | .read => after.waits = none ∧ after.reads = before.reads + 1 ∧ after.writes = before.writes
  | .write => after.waits = none ∧ after.reads = before.reads ∧ after.writes = true

namespace Handler

variable {self : Handler} {chosen : Bool} {move : Move}

theorem next_fits (next : self.next chosen = some move) :
    self.place.waits = none ∧ move.Fits self.place := by
  unfold Handler.next at next
  generalize self.place = place at next
  cases place with
  | admitted =>
    dsimp only at next
    split at next
    · cases next
      exact ⟨rfl, rfl, rfl, rfl⟩
    · split at next
      · cases next
        exact ⟨rfl, rfl, rfl, rfl⟩
      · cases next
        exact ⟨rfl, rfl, rfl, rfl⟩
  | hydrated =>
    dsimp only at next
    split at next
    · cases next
      exact ⟨rfl, rfl, rfl, rfl⟩
    · split at next
      all_goals
        cases next
        exact ⟨rfl, rfl, rfl, rfl⟩
  | hydrating left =>
    cases left with
    | zero =>
      cases next
      exact ⟨rfl, rfl, rfl, rfl⟩
    | succ left =>
      cases next
      exact ⟨rfl, rfl, rfl, rfl⟩
  | serving left =>
    cases left with
    | zero =>
      cases next
      exact ⟨rfl, rfl, rfl, rfl⟩
    | succ left =>
      dsimp only at next
      split at next
      all_goals
        cases next
        exact ⟨rfl, rfl, rfl, rfl⟩
  | deleting left =>
    cases left with
    | zero =>
      cases next
      exact ⟨rfl, rfl, rfl, rfl⟩
    | succ left =>
      dsimp only at next
      split at next
      all_goals
        cases next
        exact ⟨rfl, rfl, rfl, rfl⟩
  | altering left =>
    cases left with
    | zero =>
      cases next
      exact ⟨rfl, rfl, rfl, rfl, rfl⟩
    | succ left =>
      cases next
      exact ⟨rfl, rfl, rfl, rfl⟩
  | creating left =>
    cases next
    exact ⟨rfl, rfl, rfl, rfl⟩
  | tombstoning left =>
    cases next
    exact ⟨rfl, rfl, rfl, rfl, rfl⟩
  | _ => cases next

theorem exists_next (unblocked : self.place.waits = none) (going : self.place ≠ .answered) :
    ∃ move, self.next false = some move := by
  unfold Handler.next
  generalize self.place = place at unblocked going
  cases place with
  | answered => exact absurd rfl going
  | hydrateWaiting => cases unblocked
  | waiting => cases unblocked
  | createWaiting left => cases unblocked
  | deleteWaiting left => cases unblocked
  | alterWaiting => cases unblocked
  | admitted => cases self.authenticated <;> exact ⟨_, rfl⟩
  | hydrated => cases self.api <;> exact ⟨_, rfl⟩
  | hydrating left => cases left <;> exact ⟨_, rfl⟩
  | serving left => cases left <;> simp
  | deleting left => cases left <;> exact ⟨_, rfl⟩
  | altering left => cases left <;> exact ⟨_, rfl⟩
  | creating left => exact ⟨_, rfl⟩
  | tombstoning left => exact ⟨_, rfl⟩

theorem granted_fits {side : Side} (waits : self.place.waits = some side) :
    Place.Given self.place self.granted side := by
  unfold Handler.granted
  generalize self.place = place at waits
  cases place with
  | hydrateWaiting => cases waits; exact ⟨rfl, rfl, rfl⟩
  | waiting => cases waits; exact ⟨rfl, rfl, rfl⟩
  | createWaiting left => cases waits; exact ⟨rfl, rfl, rfl⟩
  | deleteWaiting left => cases waits; exact ⟨rfl, rfl, rfl⟩
  | alterWaiting => cases waits; exact ⟨rfl, rfl, rfl⟩
  | _ => cases waits

end Handler

theorem Place.waits_of_writes {place : Place} (writes : place.writes = true) :
    place.waits = none := by
  cases place <;> cases writes <;> rfl

namespace World

variable {self next : World} {action : Action} {id : Nat} {handler : Handler}

/-- The lock holds what its holders hold, and those wait that wait for it. -/
structure LockSound (world : World) : Prop where
  waits : ∀ id side, (id, side) ∈ world.lock.waiting ↔
    ∃ handler, world.handlers id = some handler ∧ handler.place.waits = some side
  once : (world.lock.waiting.map Prod.fst).Nodup
  reads : ∀ id, world.lock.readers.count id =
    (world.handlers id).elim 0 fun handler => handler.place.reads
  writes : ∀ id, world.lock.writer = some id ↔
    ∃ handler, world.handlers id = some handler ∧ handler.place.writes = true

@[simp] theorem lock_goTo (place : Place) : (self.goTo id handler place).lock = self.lock := rfl

theorem found_goTo {self : World} (found : self.handlers id = some handler) (place : Place)
    (other : Nat) (P : Place → Prop) : (∃ after, (self.goTo id handler place).handlers other = some after ∧
      P after.place) ↔ (other = id ∧ P place) ∨
        (other ≠ id ∧ ∃ before, self.handlers other = some before ∧ P before.place) := by
  by_cases eq : other = id
  · subst eq
    simp [goTo, setHandler]
  · simp [goTo, setHandler, eq]

namespace LockSound

/-- A request that moves keeps the lock's account when what it has and waits for agrees. -/
theorem goTo (sound : self.LockSound) (found : self.handlers id = some handler) {place : Place}
    (lock : FairLock Nat)
    (waits : ∀ other side, (other, side) ∈ lock.waiting ↔ if other = id then
      place.waits = some side else (other, side) ∈ self.lock.waiting)
    (once : (lock.waiting.map Prod.fst).Nodup)
    (reads : ∀ other, lock.readers.count other = if other = id then place.reads
      else self.lock.readers.count other)
    (writes : ∀ other, lock.writer = some other ↔ if other = id then place.writes = true
      else self.lock.writer = some other) :
    ({ self with lock := lock } : World).goTo id handler place |>.LockSound where
  waits := by
    intro other side
    rw [@found_goTo id handler { self with lock := lock } found place other
      fun place => place.waits = some side]
    by_cases eq : other = id
    · simpa [eq] using waits id side
    · have := waits other side
      rw [if_neg eq, sound.waits] at this
      simpa [eq] using this
  once := once
  reads := by
    intro other
    refine (reads other).trans ?_
    by_cases eq : other = id
    · simp [eq, World.goTo, setHandler]
    · rw [if_neg eq, sound.reads]
      simp [eq, World.goTo, setHandler]
  writes := by
    intro other
    rw [@found_goTo id handler { self with lock := lock } found place other
      fun place => place.writes = true]
    by_cases eq : other = id
    · simpa [eq] using writes id
    · have := writes other
      rw [if_neg eq, sound.writes] at this
      simpa [eq] using this

theorem not_waiting (sound : self.LockSound) (found : self.handlers id = some handler)
    (unblocked : handler.place.waits = none) (side : Side) : (id, side) ∉ self.lock.waiting := by
  intro among
  obtain ⟨other, found', waits⟩ := (sound.waits id side).mp among
  cases found.symm.trans found'
  cases unblocked.symm.trans waits

theorem count_readers (sound : self.LockSound) (found : self.handlers id = some handler) :
    self.lock.readers.count id = handler.place.reads := by
  rw [sound.reads, found, Option.elim_some]

theorem writer_iff (sound : self.LockSound) (found : self.handlers id = some handler) :
    self.lock.writer = some id ↔ handler.place.writes = true := by
  rw [sound.writes]
  constructor
  · intro writes
    obtain ⟨other, found', writes⟩ := writes
    cases found.symm.trans found'
    exact writes
  · exact fun writes => ⟨handler, found, writes⟩

theorem moves (sound : self.LockSound) (found : self.handlers id = some handler) {chosen : Bool}
    {move : Move} (next : handler.next chosen = some move) :
    (self.move id handler move).LockSound := by
  obtain ⟨unblocked, fits⟩ := handler.next_fits next
  have absent := sound.not_waiting found unblocked
  have counted := sound.count_readers found
  have writer := sound.writer_iff found
  have waiting (place : Place) (still : place.waits = none) (other : Nat) (side : Side) :
      (other, side) ∈ self.lock.waiting ↔
        if other = id then place.waits = some side else (other, side) ∈ self.lock.waiting := by
    split
    · rename_i same
      rw [same, still]
      exact ⟨fun among => absurd among (absent side), nofun⟩
    · rfl
  cases move with
  | goes place =>
    obtain ⟨still, reads, writes⟩ := fits
    refine sound.goTo found self.lock (waiting place still) sound.once ?_ ?_
    · intro other
      split
      · rename_i same
        rw [same, counted, reads]
      · rfl
    · intro other
      split
      · rename_i same
        rw [same, writer, writes]
      · rfl
  | asks side place =>
    obtain ⟨waits, reads, writes⟩ := fits
    refine sound.goTo found (self.lock.ask id side) ?_ ?_ ?_ ?_
    · intro other asked
      simp only [FairLock.ask, List.mem_append, List.mem_singleton, Prod.mk.injEq]
      split
      · rename_i same
        rw [same, waits]
        simp [absent asked, eq_comm]
      · rename_i differs
        simp [differs]
    · simp only [FairLock.ask, List.map_append, List.map_cons, List.map_nil]
      refine List.Nodup.append sound.once (List.nodup_singleton id) ?_
      rw [List.disjoint_singleton]
      intro among
      obtain ⟨⟨other, asked⟩, there, same⟩ := List.mem_map.mp among
      cases same
      exact absent asked there
    · intro other
      split
      · rename_i same
        rw [same]
        exact counted.trans reads.symm
      · rfl
    · intro other
      split
      · rename_i same
        rw [same]
        exact writer.trans (by rw [writes])
      · rfl
  | lets side place =>
    cases side with
    | read =>
      obtain ⟨still, reads, writes⟩ := fits
      refine sound.goTo found (self.lock.release id .read) (waiting place still)
        sound.once ?_ ?_
      · intro other
        simp only [FairLock.release]
        split
        · rename_i same
          rw [same, List.count_erase_self, counted, reads]
          rfl
        · rename_i differs
          exact List.count_erase_of_ne differs
      · intro other
        split
        · rename_i same
          rw [same]
          exact writer.trans (by rw [writes])
        · rfl
    | write =>
      obtain ⟨still, reads, wrote, writes⟩ := fits
      refine sound.goTo found (self.lock.release id .write) (waiting place still)
        sound.once ?_ ?_
      · intro other
        split
        · rename_i same
          rw [same]
          exact counted.trans reads.symm
        · rfl
      · intro other
        simp only [FairLock.release]
        split
        · simp [writes]
        · rename_i differs
          rw [writer.mpr wrote]
          simp [Ne.symm differs]

theorem grants (sound : self.LockSound) {lock : FairLock Nat}
    (granted : self.lock.grant = some (id, lock)) (found : self.handlers id = some handler) :
    (({ self with lock := lock } : World).goTo id handler handler.granted).LockSound := by
  obtain ⟨side, rest, first, admits, given⟩ := FairLock.grant_eq_some.mp granted
  dsimp only at first admits given
  rw [given]
  have once := sound.once
  rw [first, List.map_cons, List.nodup_cons] at once
  obtain ⟨other, found', waits⟩ := (sound.waits id side).mp (first ▸ List.mem_cons_self ..)
  cases found.symm.trans found'
  have counted := sound.count_readers found
  have writer := sound.writer_iff found
  have given := handler.granted_fits waits
  have still : handler.granted.waits = none := by cases side <;> exact given.1
  have waiting (other : Nat) (asked : Side) : (other, asked) ∈ rest ↔
      if other = id then handler.granted.waits = some asked
      else (other, asked) ∈ self.lock.waiting := by
    rw [first]
    split
    · rename_i same
      rw [same, still]
      exact ⟨fun among => absurd (List.mem_map_of_mem among) once.1, nofun⟩
    · rename_i differs
      simp [differs]
  cases side with
  | read =>
    obtain ⟨-, reads, writes⟩ := given
    refine sound.goTo found _ waiting once.2 ?_ ?_
    · intro other
      simp only [FairLock.give]
      split
      · rename_i same
        rw [same, List.count_cons_self, counted, reads]
      · rename_i differs
        exact List.count_cons_of_ne (Ne.symm differs)
    · intro other
      split
      · rename_i same
        rw [same]
        exact writer.trans (by rw [writes])
      · rfl
  | write =>
    obtain ⟨-, reads, writes⟩ := given
    simp only [FairLock.admits, Bool.and_eq_true, Option.isNone_iff_eq_none] at admits
    refine sound.goTo found _ waiting once.2 ?_ ?_
    · intro other
      split
      · rename_i same
        rw [same]
        exact counted.trans reads.symm
      · rfl
    · intro other
      simp only [FairLock.give, admits.1]
      split
      · rename_i same
        simp [same, writes]
      · rename_i differs
        simp [Ne.symm differs]

theorem expires (sound : self.LockSound) (found : self.handlers id = some handler) {left : Nat}
    (at_ : handler.place = .deleteWaiting left) :
    (({ self with lock := self.lock.withdraw id } : World).goTo id handler
      (.deleting left)).LockSound := by
  have counted := sound.count_readers found
  have writer := sound.writer_iff found
  rw [at_] at counted writer
  refine sound.goTo found _ ?_ ?_ ?_ ?_
  · intro other side
    simp only [FairLock.withdraw, List.mem_filter, decide_eq_true_eq]
    split
    · rename_i same
      simp [same, Place.waits]
    · rename_i differs
      simp [differs]
  · exact sound.once.sublist ((List.filter_sublist).map _)
  · intro other
    split
    · rename_i same
      rw [same]
      exact counted
    · rfl
  · intro other
    split
    · rename_i same
      rw [same]
      exact writer
    · rfl

theorem arrives (sound : self.LockSound) (new : self.handlers id = none)
    (fresh : handler.place = .admitted) : (self.setHandler id handler).LockSound where
  waits := by
    intro other side
    rw [show (self.setHandler id handler).lock = self.lock from rfl, sound.waits]
    by_cases eq : other = id
    · simp [eq, setHandler, new, fresh, Place.waits]
    · simp [eq, setHandler]
  once := sound.once
  reads := by
    intro other
    refine (sound.reads other).trans ?_
    by_cases eq : other = id
    · simp [eq, setHandler, new, fresh, Place.reads]
    · simp [eq, setHandler]
  writes := by
    intro other
    rw [show (self.setHandler id handler).lock = self.lock from rfl, sound.writes]
    by_cases eq : other = id
    · simp [eq, setHandler, new, fresh, Place.writes]
    · simp [eq, setHandler]

theorem init : World.LockSound {} where
  waits := by simp
  once := by simp
  reads := by simp
  writes := by simp

theorem step (sound : self.LockSound) (h : self.step action = some next) : next.LockSound := by
  cases action with
  | arrive id api authenticated creations items =>
    simp only [World.step] at h
    split at h
    · cases h
    · rename_i new
      cases h
      exact sound.arrives (by simpa using new) rfl
  | advance id chosen =>
    simp only [World.step, Option.bind_eq_bind] at h
    obtain ⟨handler, found, h⟩ := Option.bind_eq_some_iff.mp h
    obtain ⟨move, next_, h⟩ := Option.bind_eq_some_iff.mp h
    cases h
    exact sound.moves found next_
  | grant =>
    simp only [World.step, Option.bind_eq_bind] at h
    obtain ⟨⟨id, lock⟩, granted, h⟩ := Option.bind_eq_some_iff.mp h
    obtain ⟨handler, found, h⟩ := Option.bind_eq_some_iff.mp h
    cases h
    exact sound.grants granted found
  | expire id =>
    simp only [World.step, Option.bind_eq_bind] at h
    obtain ⟨handler, found, h⟩ := Option.bind_eq_some_iff.mp h
    split at h
    · rename_i at_
      cases h
      exact sound.expires found at_
    · cases h

end LockSound

/-- It waits for the write side, and no deadline ends that. -/
def Patient (self : World) (id : Nat) : Prop := ∃ handler, self.handlers id = some handler ∧
  handler.place.waits = some .write ∧ handler.place.expires = false

def Nests (self : World) (id : Nat) : Prop := ∃ handler, self.handlers id = some handler ∧
  handler.place.waits = some .read ∧ 0 < handler.place.reads

/-- Nobody asks again behind a writer that waits for it. -/
def Untangled (self : World) : Prop :=
  self.lock.waiting.Pairwise fun a b => ¬ (self.Patient a.1 ∧ self.Nests b.1)

/-- A request is to create a topic while an alteration of topics waits. -/
def Renests (self : World) (action : Action) : Prop := ∃ id handler left other waiting,
  action = .advance id true ∧ self.handlers id = some handler ∧
    handler.place = .serving (left + 1) ∧ handler.api.createsTopics = true ∧
    self.handlers other = some waiting ∧ waiting.place = .alterWaiting

/-- It waits for the lock, and for nothing else. -/
def OnlyLocks (self : World) (id : Nat) : Prop := ∃ handler, self.handlers id = some handler ∧
  handler.place.waits.isSome ∧ handler.place.expires = false

/-- As long as a request is unfinished some request can go on, and no requests wait for each
other alone. -/
structure Lively (world : World) : Prop where
  enabled : ∀ id handler, world.handlers id = some handler → handler.place ≠ .answered →
    ∃ action, action.serves = true ∧ (world.step action).isSome
  free : ∀ stuck : Set Nat, stuck.Nonempty →
    ¬ ∀ id ∈ stuck, world.OnlyLocks id ∧ ∃ other ∈ stuck, world.lock.Blocks other id

theorem handlers_goTo_of_ne {place : Place} {other : Nat} (ne : other ≠ id) :
    (self.goTo id handler place).handlers other = self.handlers other :=
  Function.update_of_ne ne ..

namespace Untangled

theorem fewer (untangled : self.Untangled) (fewer : next.lock.waiting.Sublist self.lock.waiting)
    (same : ∀ waiting ∈ next.lock.waiting, next.handlers waiting.1 = self.handlers waiting.1) :
    next.Untangled := by
  refine (untangled.sublist fewer).imp_of_mem ?_
  intro a b among among' apart tangled
  refine apart ⟨?_, ?_⟩
  · obtain ⟨handler, found, waits⟩ := tangled.1
    exact ⟨handler, (same a among).symm.trans found, waits⟩
  · obtain ⟨handler, found, waits⟩ := tangled.2
    exact ⟨handler, (same b among').symm.trans found, waits⟩

/-- One more waits, and is not tangled with those before it. -/
theorem more (untangled : self.Untangled) {side : Side}
    (more : next.lock.waiting = self.lock.waiting ++ [(id, side)])
    (same : ∀ waiting ∈ self.lock.waiting, next.handlers waiting.1 = self.handlers waiting.1)
    (apart : ∀ waiting ∈ self.lock.waiting, ¬ (self.Patient waiting.1 ∧ next.Nests id)) :
    next.Untangled := by
  unfold Untangled
  rw [more, List.pairwise_append]
  refine ⟨?_, List.pairwise_singleton .., ?_⟩
  · refine List.Pairwise.imp_of_mem ?_ untangled
    intro a b among among' apart tangled
    refine apart ⟨?_, ?_⟩
    · obtain ⟨handler, found, waits⟩ := tangled.1
      exact ⟨handler, (same a among).symm.trans found, waits⟩
    · obtain ⟨handler, found, waits⟩ := tangled.2
      exact ⟨handler, (same b among').symm.trans found, waits⟩
  · intro a among b here tangled
    rw [List.mem_singleton] at here
    subst here
    refine apart a among ⟨?_, tangled.2⟩
    obtain ⟨handler, found, waits⟩ := tangled.1
    exact ⟨handler, (same a among).symm.trans found, waits⟩

end Untangled

theorem patient_iff : self.Patient id ↔
    ∃ handler, self.handlers id = some handler ∧ handler.place = .alterWaiting := by
  constructor
  · intro patient
    obtain ⟨handler, found, waits, expires⟩ := patient
    refine ⟨handler, found, ?_⟩
    generalize handler.place = place at waits expires
    cases place with
    | alterWaiting => rfl
    | deleteWaiting => cases expires
    | _ => cases waits
  · intro patient
    obtain ⟨handler, found, at_⟩ := patient
    exact ⟨handler, found, by rw [at_]; rfl, by rw [at_]; rfl⟩

/-- The only request that asks for the read side and has it is one that creates a topic. -/
theorem next_nests {chosen : Bool} {side : Side} {place : Place}
    (next : handler.next chosen = some (.asks side place)) (waits : place.waits = some .read)
    (reads : 0 < place.reads) : chosen = true ∧ handler.api.createsTopics = true ∧
      ∃ left, handler.place = .serving (left + 1) := by
  unfold Handler.next at next
  generalize handler.place = before at next
  cases before with
  | serving left =>
    cases left with
    | zero => cases next
    | succ left =>
      dsimp only at next
      split at next
      · rename_i creates
        rw [Bool.and_eq_true] at creates
        exact ⟨creates.2, creates.1, left, rfl⟩
      · cases next
  | admitted =>
    dsimp only at next
    split at next
    · cases next
    · split at next
      · cases next
        cases reads
      · cases next
  | hydrated =>
    dsimp only at next
    split at next
    · cases next
    · split at next
      · cases next
      · cases next
        cases waits
      · cases next
        cases waits
      · cases next
        cases reads
  | hydrating left => cases left <;> cases next
  | deleting left =>
    cases left with
    | zero => cases next
    | succ left =>
      dsimp only at next
      split at next
      · cases next
        cases waits
      · cases next
  | altering left => cases left <;> cases next
  | _ => cases next

theorem Untangled.step (untangled : self.Untangled) (sound : self.LockSound)
    (careful : ¬ self.Renests action) (h : self.step action = some next) : next.Untangled := by
  cases action with
  | arrive id api authenticated creations items =>
    simp only [World.step] at h
    split at h
    · cases h
    · rename_i new
      cases h
      refine untangled.fewer (List.Sublist.refl _) fun waiting among => ?_
      obtain ⟨handler, found, -⟩ := (sound.waits waiting.1 waiting.2).mp among
      refine Function.update_of_ne (fun same => ?_) ..
      rw [same] at found
      rw [found] at new
      exact new rfl
  | advance id chosen =>
    simp only [World.step, Option.bind_eq_bind] at h
    obtain ⟨handler, found, h⟩ := Option.bind_eq_some_iff.mp h
    obtain ⟨move, next_, h⟩ := Option.bind_eq_some_iff.mp h
    cases h
    obtain ⟨unblocked, fits⟩ := handler.next_fits next_
    have differs (waiting : Nat × Side) (among : waiting ∈ self.lock.waiting) :
        waiting.1 ≠ id := by
      intro same
      subst same
      exact sound.not_waiting found unblocked waiting.2 among
    cases move with
    | goes place =>
      refine untangled.fewer (List.Sublist.refl _) fun waiting among => ?_
      exact handlers_goTo_of_ne (differs waiting among)
    | lets side place =>
      cases side with
      | read =>
        refine untangled.fewer (List.Sublist.refl _) fun waiting among => ?_
        exact handlers_goTo_of_ne (differs waiting among)
      | write =>
        refine untangled.fewer (List.Sublist.refl _) fun waiting among => ?_
        exact handlers_goTo_of_ne (differs waiting among)
    | asks side place =>
      refine untangled.more rfl (fun waiting among => handlers_goTo_of_ne (differs waiting among)) ?_
      intro waiting among tangled
      obtain ⟨patient, after, found', waits, reads⟩ := tangled
      have same : after.place = place := by
        simp only [World.move, World.goTo, setHandler, Function.update_self,
          Option.some.injEq] at found'
        rw [← found']
      rw [same] at waits reads
      obtain ⟨rfl, creates, left, at_⟩ := next_nests next_ waits reads
      obtain ⟨other, found', at_'⟩ := patient_iff.mp patient
      exact careful ⟨id, handler, left, waiting.1, other, rfl, found, at_, creates, found', at_'⟩
  | grant =>
    simp only [World.step, Option.bind_eq_bind] at h
    obtain ⟨⟨id, lock⟩, granted, h⟩ := Option.bind_eq_some_iff.mp h
    obtain ⟨handler, found, h⟩ := Option.bind_eq_some_iff.mp h
    cases h
    obtain ⟨side, rest, first, -, given⟩ := FairLock.grant_eq_some.mp granted
    dsimp only at first given
    have left : lock.waiting = rest := by
      rw [given]
      cases side <;> rfl
    have once := sound.once
    rw [first, List.map_cons, List.nodup_cons] at once
    refine untangled.fewer ?_ fun waiting among => ?_
    · rw [lock_goTo, left, first]
      exact List.sublist_cons_self ..
    · rw [lock_goTo, left] at among
      refine handlers_goTo_of_ne fun same => once.1 ?_
      rw [← same]
      exact List.mem_map_of_mem among
  | expire id =>
    simp only [World.step, Option.bind_eq_bind] at h
    obtain ⟨handler, found, h⟩ := Option.bind_eq_some_iff.mp h
    split at h
    · cases h
      refine untangled.fewer List.filter_sublist fun waiting among => ?_
      obtain ⟨-, differs⟩ := List.mem_filter.mp among
      exact handlers_goTo_of_ne (of_decide_eq_true differs)
    · cases h

theorem advance_enabled (found : self.handlers id = some handler)
    (unblocked : handler.place.waits = none) (going : handler.place ≠ .answered) :
    (self.step (.advance id false)).isSome := by
  obtain ⟨move, next_⟩ := handler.exists_next unblocked going
  simp [World.step, found, next_]

theorem grant_enabled (sound : self.LockSound) {side : Side} {rest : List (Nat × Side)}
    (first : self.lock.waiting = (id, side) :: rest) (admits : self.lock.admits side = true) :
    (self.step .grant).isSome := by
  obtain ⟨handler, found, -⟩ := (sound.waits id side).mp (first ▸ List.mem_cons_self ..)
  have granted : self.lock.grant = some (id, { self.lock with waiting := rest }.give id side) :=
    FairLock.grant_eq_some.mpr ⟨side, rest, first, admits, rfl⟩
  simp [World.step, granted, found]

/-- Whoever holds a side goes on, or asks for the read side again. -/
theorem holder_goes_on (sound : self.LockSound) (reads : id ∈ self.lock.readers) :
    (self.step (.advance id false)).isSome ∨ self.Nests id := by
  rw [← List.count_pos_iff, sound.reads] at reads
  cases found : self.handlers id with
  | none =>
    rw [found] at reads
    cases reads
  | some handler =>
    rw [found, Option.elim_some] at reads
    cases waits : handler.place.waits with
    | none =>
      refine .inl (advance_enabled found waits ?_)
      intro at_
      rw [at_] at reads
      cases reads
    | some side =>
      refine .inr ⟨handler, found, ?_, reads⟩
      generalize handler.place = place at waits reads
      cases place with
      | createWaiting left => rfl
      | hydrating | serving | creating => cases waits
      | _ => cases reads

theorem writer_goes_on (sound : self.LockSound) (writes : self.lock.writer = some id) :
    (self.step (.advance id false)).isSome := by
  obtain ⟨handler, found, writes⟩ := (sound.writes id).mp writes
  refine advance_enabled found (Place.waits_of_writes writes) ?_
  intro at_
  rw [at_] at writes
  cases writes

theorem expire_enabled (found : self.handlers id = some handler)
    (waits : handler.place.waits = some .write) (expires : handler.place.expires = true) :
    (self.step (.expire id)).isSome := by
  have at_ : ∃ left, handler.place = .deleteWaiting left := by
    generalize handler.place = place at waits expires
    cases place with
    | deleteWaiting left => exact ⟨left, rfl⟩
    | _ => cases expires
  obtain ⟨left, at_⟩ := at_
  simp [World.step, found, at_]

theorem Untangled.enabled (untangled : self.Untangled) (sound : self.LockSound)
    (found : self.handlers id = some handler) (going : handler.place ≠ .answered) :
    ∃ action : Action, action.serves = true ∧ (self.step action).isSome := by
  cases waits : handler.place.waits with
  | none => exact ⟨.advance id false, rfl, advance_enabled found waits going⟩
  | some side =>
    -- somebody waits: whoever waits longest, or whoever it waits for, goes on
    have among := (sound.waits id side).mpr ⟨handler, found, waits⟩
    cases first : self.lock.waiting with
    | nil =>
      rw [first] at among
      cases among
    | cons longest rest =>
      obtain ⟨longest, asked⟩ := longest
      by_cases admits : self.lock.admits asked = true
      · exact ⟨.grant, rfl, grant_enabled sound first admits⟩
      · cases writer : self.lock.writer with
        | some holder => exact ⟨.advance holder false, rfl, writer_goes_on sound writer⟩
        | none =>
          obtain ⟨giving, found', waits'⟩ :=
            (sound.waits longest asked).mp (first ▸ List.mem_cons_self ..)
          cases asked with
          | read => simp [FairLock.admits, writer] at admits
          | write =>
            have held : self.lock.readers ≠ [] := by
              intro none_
              simp [FairLock.admits, writer, none_] at admits
            obtain ⟨reader, reads⟩ := List.exists_mem_of_ne_nil _ held
            rcases holder_goes_on sound reads with goes | nests
            · exact ⟨.advance reader false, rfl, goes⟩
            · refine ⟨.expire longest, rfl, expire_enabled found' waits' ?_⟩
              cases expires : giving.place.expires with
              | true => rfl
              | false =>
                have patient : self.Patient longest := ⟨giving, found', waits', expires⟩
                obtain ⟨nested, found'', waits'', reads'⟩ := nests
                have behind := (sound.waits reader .read).mpr ⟨nested, found'', waits''⟩
                rw [first] at behind
                rcases List.mem_cons.mp behind with same | behind
                · cases same
                · have apart := untangled
                  unfold Untangled at apart
                  rw [first, List.pairwise_cons] at apart
                  exact absurd ⟨patient, nested, found'', waits'', reads'⟩
                    (apart.1 (reader, .read) behind)

theorem Untangled.free (untangled : self.Untangled) (sound : self.LockSound) {stuck : Set Nat}
    (some : stuck.Nonempty) : ¬ ∀ id ∈ stuck, self.OnlyLocks id ∧
      ∃ other ∈ stuck, self.lock.Blocks other id := by
  intro each
  have holds : ∀ i, self.lock.writer = .some i → ∀ side, (i, side) ∉ self.lock.waiting := by
    intro i writes side
    obtain ⟨handler, found, writes⟩ := (sound.writes i).mp writes
    exact sound.not_waiting found (Place.waits_of_writes writes) side
  obtain ⟨front, writer, back, reader, split_, isStuck, isStuck', reads, behind⟩ :=
    FairLock.exists_reader_behind_writer some (fun id member => (each id member).2) sound.once holds
  have among : (writer, .write) ∈ self.lock.waiting := by
    rw [split_]
    simp
  obtain ⟨giving, found, waits⟩ := (sound.waits writer .write).mp among
  obtain ⟨⟨same, found', -, expires⟩, -⟩ := each writer isStuck
  cases found.symm.trans found'
  have patient : self.Patient writer := ⟨giving, found, waits, expires⟩
  obtain ⟨⟨nested, found'', waiting, -⟩, -⟩ := each reader isStuck'
  rcases holder_goes_on sound reads with goes | nests
  · obtain ⟨side, waits'⟩ := Option.isSome_iff_exists.mp waiting
    simp only [World.step, found'', Option.bind_eq_bind, Option.bind_some] at goes
    cases next_ : nested.next false with
    | none =>
      rw [next_] at goes
      cases goes
    | some move => cases (nested.next_fits next_).1.symm.trans waits'
  · rcases behind with same | ⟨side, behind⟩
    · obtain ⟨handler, there, waits', -⟩ := nests
      rw [same] at there
      cases found.symm.trans there
      cases waits.symm.trans waits'
    · have apart := untangled
      unfold Untangled at apart
      rw [split_, List.pairwise_append] at apart
      have := (List.pairwise_cons.mp apart.2.1).1 (reader, side) behind
      exact this ⟨patient, nests⟩

theorem Untangled.lively (untangled : self.Untangled) (sound : self.LockSound) : self.Lively where
  enabled := fun _ _ found going => untangled.enabled sound found going
  free := fun _ some => untangled.free sound some

/-- A topic to be created and an alteration of topics then wait for each other alone. -/
theorem Renests.stuck (sound : self.LockSound) (renests : self.Renests action)
    (h : self.step action = some next) : ¬ next.Lively := by
  intro lively
  obtain ⟨id, handler, left, other, waiting, rfl, found, at_, creates, found', at_'⟩ := renests
  have moved : handler.next true = some (.asks .read (.createWaiting left)) := by
    simp [Handler.next, at_, creates]
  simp only [World.step, Option.bind_eq_bind, found, Option.bind_some, moved] at h
  cases h
  have differs : other ≠ id := by
    intro same
    subst same
    cases found.symm.trans found'
    cases at_.symm.trans at_'
  have reads : id ∈ self.lock.readers := by
    rw [← List.count_pos_iff, sound.count_readers found, at_]
    exact Nat.one_pos
  have waits : (other, .write) ∈ self.lock.waiting :=
    (sound.waits other .write).mpr ⟨waiting, found', by rw [at_']; rfl⟩
  have here : (self.move id handler (.asks .read (.createWaiting left))).handlers id =
      some { handler with place := .createWaiting left } := Function.update_self ..
  have there : (self.move id handler (.asks .read (.createWaiting left))).handlers other =
      some waiting := (handlers_goTo_of_ne differs).trans found'
  have sound' := sound.moves found moved
  refine lively.free {id, other} ⟨id, by simp⟩ ?_
  intro each member
  rcases member with rfl | rfl
  · refine ⟨⟨_, here, rfl, rfl⟩, other, by simp, .read, ?_, .inl ⟨.write, ?_⟩⟩
    · exact (sound'.waits each .read).mpr ⟨_, here, rfl⟩
    · have ahead : (self.move each handler (.asks .read (.createWaiting left))).lock.ahead each =
          self.lock.waiting := FairLock.ahead_eq rfl sound'.once
      rw [ahead]
      exact waits
  · refine ⟨⟨_, there, by rw [at_']; rfl, by rw [at_']; rfl⟩, id, by simp, .write, ?_, ?_⟩
    · exact (sound'.waits each .write).mpr ⟨_, there, by rw [at_']; rfl⟩
    · exact .inr (.inr ⟨rfl, reads⟩)

/-- Every state a run comes through is lively exactly when none of its requests is to create
a topic, under the read side it has, while an alteration of topics waits for the write side. -/
theorem lively_iff {actions : List Action} {world : World}
    (ran : Steps.run World.step {} actions = some world) :
    (∀ before after mid, actions = before ++ after →
      Steps.run World.step {} before = some mid → mid.Lively) ↔
    ∀ before action after mid, actions = before ++ action :: after →
      Steps.run World.step {} before = some mid → ¬ mid.Renests action := by
  have sound {before : List Action} {mid : World}
      (ran : Steps.run World.step {} before = some mid) : mid.LockSound :=
    Steps.run_invariant World.LockSound (fun _ _ _ sound stepped => sound.step stepped) .init ran
  constructor
  · rintro lively before action after mid rfl ran_mid renests
    rw [Steps.run_append, ran_mid, Option.bind_some] at ran
    obtain ⟨next, stepped, -⟩ := Steps.run_cons.mp ran
    refine renests.stuck (sound ran_mid) stepped (lively (before ++ [action]) after next ?_ ?_)
    · simp
    · rw [Steps.run_append, ran_mid, Option.bind_some]
      simp [Steps.run, stepped]
  · rintro careful before after mid rfl ran_mid
    have untangled : mid.Untangled := by
      refine Steps.run_history (fun visited world => visited <+: before → world.Untangled)
        (fun _ => List.Pairwise.nil) ?_ ran_mid (List.prefix_refl _)
      rintro earlier world action next ran_world untangled stepped ⟨rest, rfl⟩
      refine (untangled ⟨action :: rest, by simp⟩).step (sound ran_world) ?_ stepped
      exact careful earlier action (rest ++ after) world (by simp) ran_world
    exact untangled.lively (sound ran_mid)

/-- Topics are looked up, altered and deleted side by side. -/
def lookupBeside : List Action :=
  [.arrive 0 .metadata true 0 1, .advance 0 false, .grant, .advance 0 false, .advance 0 false,
    .grant, .arrive 1 .alterConfigs false 0 1, .advance 1 false, .advance 1 false,
    .advance 0 false, .advance 0 false, .grant, .advance 1 false, .advance 1 false]

theorem lively_iff_lookupBeside : ∃ world,
    Steps.run World.step {} lookupBeside = some world ∧ ∀ before after mid,
      lookupBeside = before ++ after → Steps.run World.step {} before = some mid → mid.Lively := by
  refine ⟨_, rfl, (lively_iff rfl).mpr ?_⟩
  intro before action after mid split_ _ renests
  obtain ⟨id, _, _, _, _, rfl, -⟩ := renests
  have among : Action.advance id true ∈ lookupBeside := by
    rw [split_]
    simp
  simp [lookupBeside] at among

/-- An alteration of topics comes between a `Metadata` request and the topic it creates. -/
def createBehind : List Action :=
  [.arrive 0 .metadata false 0 1, .advance 0 false, .advance 0 false, .grant,
    .arrive 1 .alterConfigs false 0 1, .advance 1 false, .advance 1 false, .advance 0 true]

/-- Both wait for each other, and no step of a request is left. -/
theorem create_stuck : ∃ world, Steps.run World.step {} createBehind = some world ∧
    ¬ world.Lively ∧ ∀ action : Action, action.serves = true → world.step action = none := by
  have before : ∃ mid next, Steps.run World.step {} (createBehind.take 7) = some mid ∧
      Steps.run World.step {} createBehind = some next ∧
      mid.step (.advance 0 true) = some next ∧
      mid.handlers 0 = some ⟨.metadata, false, 0, 1, .serving 1⟩ ∧
      mid.handlers 1 = some ⟨.alterConfigs, false, 0, 1, .alterWaiting⟩ :=
    ⟨_, _, rfl, rfl, rfl, rfl, rfl⟩
  obtain ⟨mid, next, ran_mid, ran, stepped, creates, alters⟩ := before
  have sound : mid.LockSound :=
    Steps.run_invariant World.LockSound (fun _ _ _ sound stepped => sound.step stepped) .init ran_mid
  refine ⟨next, ran, ?_, ?_⟩
  · exact Renests.stuck sound ⟨0, _, 0, 1, _, rfl, creates, rfl, rfl, alters, rfl⟩ stepped
  · cases ran
    intro action serves
    cases action with
    | arrive => cases serves
    | grant => rfl
    | advance id chosen =>
      rcases id with _ | _ | id <;> rfl
    | expire id =>
      rcases id with _ | _ | id <;> rfl

end World

end Dispatch

end Oqueue
