import Oqueue.Group.JoinBarriers

/-!
# The mutex while the awaited members are looked at

Whether each awaited member is live is read one member after the other, all under the
rounds' mutex. So there is one handler at most in the middle of it, and every other
step that takes the mutex waits.
-/

namespace Oqueue

namespace JoinGroup

def Place.prunes : Place → Bool
  | .pruning _ _ _ => true
  | _ => false

theorem Place.prunes_eq_true {place : Place} :
    place.prunes = true ↔ ∃ wait kept rest, place = .pruning wait kept rest := by
  cases place <;> simp [Place.prunes]

theorem Walk.prunes {self : World} {place place' : Place} (walk : Walk self place place') :
    place'.prunes = place.prunes := by
  cases walk with
  | replans => rename_i left _ _; cases left <;> rfl
  | hears => rename_i outcome _; cases outcome <;> rfl
  | checkHears => rename_i outcome _; cases outcome <;> rfl
  | lapseHears => rename_i outcome _; cases outcome <;> rfl
  | notMine => rename_i early _ _; cases early <;> rfl
  | givesUp => rename_i early _ _ _; cases early <;> rfl
  | _ => rfl

theorem Leaves.prunes {place place' : Place} (leaves : Leaves place place') :
    place'.prunes = place.prunes := by
  cases leaves with
  | opened => rename_i left _; cases left <;> rfl
  | abandoned => rename_i left _ _; cases left <;> rfl
  | persistTried => rename_i early _ _; cases early <;> rfl
  | abandonTried => rename_i early; cases early <;> rfl
  | _ => rfl

theorem Moves.lock {self : World} {id : Nat} {handler : Handler} {effect : Effect}
    (moved : Moves self id handler effect) (suits : handler.place.Suits self.rounds) :
    (effect.lock = self.lock ∧ effect.place.prunes = handler.place.prunes) ∨
    (self.lock = none ∧ effect.lock = some id ∧ effect.place.prunes = true) ∨
    (handler.place.prunes = true ∧ effect.lock = none ∧ effect.place.prunes = false) := by
  cases moved with
  | walks walk => exact .inl ⟨rfl, walk.prunes⟩
  | leaves leaving => exact .inl ⟨rfl, leaving.prunes⟩
  | stale at_ needed =>
    rw [at_] at suits
    rw [← Rounds.current_eq_none] at needed
    cases needed.symm.trans suits
  | locks at_ free found => exact .inr (.inl ⟨free, rfl, rfl⟩)
  | rosterDead at_ => exact .inr (.inr ⟨by rw [at_]; rfl, rfl, rfl⟩)
  | rechecks at_ => exact .inr (.inr ⟨by rw [at_]; rfl, rfl, rfl⟩)
  | refuses at_ | opens at_ | enrols at_ | fills at_ | installs at_ | publishes at_
  | abandons at_ | claims at_ | withdraws at_ | registers at_ =>
    exact .inl ⟨rfl, by rw [at_]; rfl⟩

namespace World

variable {self next : World} {action : Action} {id : Nat} {handler : Handler} {effect : Effect}

/-- The lock is held by who looks at the members, and by nobody else. -/
def LockSound (self : World) : Prop := ∀ id, self.lock = some id ↔
  ∃ handler, self.handlers id = some handler ∧ handler.place.prunes = true

namespace LockSound

theorem after (locked : self.LockSound) (found : self.handlers id = some handler)
    (use_ : (effect.lock = self.lock ∧ effect.place.prunes = handler.place.prunes) ∨
      (self.lock = none ∧ effect.lock = some id ∧ effect.place.prunes = true) ∨
      (handler.place.prunes = true ∧ effect.lock = none ∧ effect.place.prunes = false)) :
    (self.after id handler effect).LockSound := by
  have mine : self.lock = some id ↔ handler.place.prunes = true := by
    simpa [found] using locked id
  intro other
  by_cases eq : other = id
  · subst eq
    rw [handlers_after_self]
    simp only [World.after, Option.some.injEq, exists_eq_left']
    rcases use_ with ⟨lock, place⟩ | ⟨-, lock, place⟩ | ⟨-, lock, place⟩
    · rw [lock, place]
      exact mine
    · simp [lock, place]
    · simp [lock, place]
  · rw [handlers_after_of_ne eq, ← locked other]
    simp only [World.after]
    rcases use_ with ⟨lock, -⟩ | ⟨free, lock, -⟩ | ⟨held, lock, -⟩
    · rw [lock]
    · simp [free, lock, Ne.symm eq]
    · rw [lock, mine.mpr held]
      simp [Ne.symm eq]

theorem hears (locked : self.LockSound) {replyTo : Option Nat} {change : Place → Place}
    (handlers : next.handlers = JoinGroup.hearing self.handlers replyTo change)
    (lock : next.lock = self.lock) (prunes : ∀ place, (change place).prunes = place.prunes) :
    next.LockSound := by
  intro id
  rw [lock, locked id, handlers]
  unfold JoinGroup.hearing
  cases self.handlers id with
  | none => simp
  | some handler => by_cases told : replyTo = some id <;> simp [told, prunes]

theorem step (locked : self.LockSound) (slot : self.SlotSound)
    (stepped : Stepped self action next) : next.LockSound := by
  have unheard {other : World} (handlers : other.handlers = self.handlers)
      (lock : other.lock = self.lock) : other.LockSound := by
    intro id
    rw [lock, handlers]
    exact locked id
  cases stepped with
  | ticks => exact unheard rfl rfl
  | arrives new unenrolled place acted =>
    rename_i id minted handler
    have stands : handler.place.prunes = false := by
      rcases place with ⟨_, _, at_⟩ | ⟨_, at_⟩ <;> rw [at_] <;> rfl
    intro other
    rw [locked other]
    by_cases eq : other = id
    · subst eq
      simp [new, stands]
    · simp [Function.update_of_ne eq]
  | moves found moved => exact locked.after found (moved.lock (slot.suits _ _ found))
  | drops found awaits free =>
    rw [goTo_eq]
    refine locked.after found (.inl ⟨rfl, ?_⟩)
    rename_i handler _
    cases at_ : handler.place <;> rw [at_] at awaits <;> first | rfl | cases awaits
  | dropsHolder found awaits holds free =>
    rw [releaseSlot_goTo]
    refine locked.after found (.inl ⟨rfl, ?_⟩)
    rename_i handler _
    cases at_ : handler.place <;> rw [at_] at awaits <;> first | rfl | cases awaits
  | accepts first taken =>
    refine locked.hears rfl rfl fun place => ?_
    unfold Place.heard
    split <;> rfl
  | rejects first =>
    refine locked.hears rfl rfl fun place => ?_
    unfold Place.heard
    split <;> rfl
  | stores first =>
    refine locked.hears rfl rfl fun place => ?_
    unfold Place.stored
    split <;> rfl
  | foreign none_ => exact unheard rfl rfl

theorem init : World.LockSound {} := by
  intro id
  simp

theorem run {actions : List Action} (ran : Steps.run World.step {} actions = some self) :
    self.LockSound := by
  refine Steps.run_history (fun _ world => world.LockSound) .init ?_ ran
  intro before mid action next ran_mid locked stepped
  exact locked.step (Sound.init.run ran_mid).slot (step_stepped stepped)

end LockSound

end World

end JoinGroup

end Oqueue
