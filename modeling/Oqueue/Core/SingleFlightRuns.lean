import Oqueue.Core.SingleFlight
import Oqueue.Library.Fair

/-!
# Nobody waits for a fetch that is over

Once a fetch is over its guard publishes it to the end, and whoever joined it
is due a poll by then. The poll finds the answer.
-/

namespace Oqueue

namespace Chunk

def Action.caller : Action → Nat
  | .call caller .. => caller
  | .fetched leader _ | .dropLeader leader | .remove leader | .publish leader | .wake leader => leader
  | .poll follower _ | .dropFollower follower => follower

def Stage.next (shared : Shared) : Stage → Option Stage
  | .fetching | .done _ => none
  | .ended ending => some (.unregistered ending)
  | .unregistered ending => some (.waking ending shared.wakers)
  | .waking ending [] => some (.done ending)
  | .waking ending (_ :: left) => some (.waking ending left)

/-- A step of this leader's guard. -/
def Action.Publishes (l : Nat) (action : Action) : Prop :=
  action = .remove l ∨ action = .publish l ∨ action = .wake l

/-- A step that ends or renews this follower's wait. -/
def Action.Serves (f : Nat) (action : Action) : Prop :=
  (∃ waker, action = .poll f waker) ∨ action = .dropFollower f

namespace World

/-- Whether this leader's guard has something left to do. -/
def Publishing (world : World) (l : Nat) : Prop := ∃ key cell stage,
  world.callers l = .leading key cell stage ∧ (stage.next (world.shared cell)).isSome

/-- Whether this follower was woken, or has yet to poll. -/
def Due (world : World) (f : Nat) : Prop := ∃ key cell waker woken,
  world.callers f = .following key cell waker woken ∧ (waker = none ∨ woken = true)

/-- A run of one store in which a guard finishes what it began, and a woken task is polled or
dropped. -/
structure FairRun {chunkSize : Nat} (b : Behaviour (World.step chunkSize)) : Prop where
  start : b.state 0 = {}
  publishing : ∀ l, b.Fair (fun world => world.Publishing l) (Action.Publishes l)
  polling : ∀ f, b.Fair (fun world => world.Due f) (Action.Serves f)

variable {world next : World} {l f : Nat} {key : ChunkKey} {cell : Nat} {stage : Stage}
  {chunkSize : Nat} {action : Action}

theorem step_elsewhere (stepped : world.step chunkSize action = some next)
    (other : f ≠ action.caller) :
    ∃ woken : Option Nat, next.callers f = woken.elim id Caller.wake (world.callers f) := by
  cases action with
  | call caller key chunkIndex length =>
    refine ⟨none, ?_⟩
    dsimp only [World.step] at stepped
    split at stepped
    · cases stepped
      split
      · exact Function.update_of_ne other ..
      · unfold joinOrLead
        split
        · exact Function.update_of_ne other ..
        · exact Function.update_of_ne other ..
    · cases stepped
  | wake leader =>
    dsimp only [World.step] at stepped
    split at stepped
    · cases stepped
      exact ⟨none, Function.update_of_ne other ..⟩
    · rename_i key cell ending waker left leads
      cases stepped
      refine ⟨some waker, ?_⟩
      change (Function.update world.callers leader _ f).wake waker = _
      rw [Function.update_of_ne (show f ≠ leader from other)]
      rfl
    · cases stepped
  | poll follower waker =>
    refine ⟨none, ?_⟩
    dsimp only [World.step] at stepped
    split at stepped
    · split at stepped
      · cases stepped
        exact Function.update_of_ne other ..
      · cases stepped
        exact Function.update_of_ne other ..
    · cases stepped
  | fetched leader answer | dropLeader leader | remove leader | publish leader
  | dropFollower leader =>
    refine ⟨none, ?_⟩
    dsimp only [World.step] at stepped
    split at stepped
    · cases stepped
      exact Function.update_of_ne other ..
    · cases stepped

/-- A leader whose fetch is over stays where it is, or its guard goes on. -/
theorem step_leader {ending : Ending} (leads : world.callers l = .leading key cell stage)
    (ended : stage.ending = some ending) (stepped : world.step chunkSize action = some next) :
    (next.callers l = .leading key cell stage ∧ ¬ action.Publishes l) ∨
      ∃ stage', stage.next (world.shared cell) = some stage' ∧
        next.callers l = .leading key cell stage' := by
  by_cases own : l = action.caller
  · subst own
    cases action with
    | call caller key chunkIndex length =>
      dsimp only [World.step, Action.caller] at stepped leads
      rw [leads] at stepped
      cases stepped
    | fetched leader answer | dropLeader leader =>
      dsimp only [World.step, Action.caller] at stepped leads
      rw [leads] at stepped
      cases stage <;> cases ended <;> cases stepped
    | remove leader | publish leader =>
      dsimp only [World.step, Action.caller] at stepped leads
      rw [leads] at stepped
      cases stage <;> cases ended <;> cases stepped
      exact .inr ⟨_, rfl, Function.update_self ..⟩
    | wake leader =>
      dsimp only [World.step, Action.caller] at stepped leads
      rw [leads] at stepped
      cases stage with
      | waking ending left =>
        cases left with
        | nil =>
          cases stepped
          exact .inr ⟨_, rfl, Function.update_self ..⟩
        | cons waker left =>
          cases stepped
          refine .inr ⟨_, rfl, ?_⟩
          change (Function.update world.callers leader _ leader).wake waker = _
          rw [Function.update_self]
          rfl
      | _ => cases stepped
    | poll follower waker | dropFollower follower =>
      dsimp only [World.step, Action.caller] at stepped leads
      rw [leads] at stepped
      cases stepped
  · obtain ⟨woken, same⟩ := step_elsewhere stepped own
    refine .inl ⟨?_, ?_⟩
    · rw [same, leads]
      cases woken <;> rfl
    · rintro (rfl | rfl | rfl) <;> exact own rfl

def Joined (world : World) (f : Nat) (key : ChunkKey) (cell : Nat) : Prop :=
  (∃ waker woken, world.callers f = .following key cell waker woken) ∨
    (∃ answer, world.callers f = .answered key cell answer) ∨ world.callers f = .gone

theorem Joined.step (joined : world.Joined f key cell)
    (stepped : world.step chunkSize action = some next) : next.Joined f key cell := by
  by_cases own : f = action.caller
  · subst own
    cases action with
    | poll follower waker =>
      dsimp only [World.step, Action.caller] at stepped joined
      rcases joined with ⟨before, woken, waits⟩ | ⟨answer, answered⟩ | gone
      · rw [waits] at stepped
        dsimp only at stepped
        split at stepped
        · cases stepped
          exact .inr (.inl ⟨_, Function.update_self ..⟩)
        · cases stepped
          exact .inl ⟨_, _, Function.update_self ..⟩
      · rw [answered] at stepped
        cases stepped
      · rw [gone] at stepped
        cases stepped
    | dropFollower follower =>
      dsimp only [World.step, Action.caller] at stepped joined
      rcases joined with ⟨before, woken, waits⟩ | ⟨answer, answered⟩ | gone
      · rw [waits] at stepped
        cases stepped
        exact .inr (.inr (Function.update_self ..))
      · rw [answered] at stepped
        cases stepped
      · rw [gone] at stepped
        cases stepped
    | call caller key chunkIndex length | fetched caller answer | dropLeader caller | remove caller
    | publish caller | wake caller =>
      dsimp only [World.step, Action.caller] at stepped joined
      rcases joined with ⟨before, woken, waits⟩ | ⟨answer, answered⟩ | gone
      · rw [waits] at stepped
        cases stepped
      · rw [answered] at stepped
        cases stepped
      · rw [gone] at stepped
        cases stepped
  · obtain ⟨woken, same⟩ := step_elsewhere stepped own
    unfold Joined
    rw [same]
    rcases joined with ⟨waker, before, waits⟩ | ⟨answer, answered⟩ | gone
    · rw [waits]
      cases woken with
      | none => exact .inl ⟨waker, before, rfl⟩
      | some woke => cases waker <;> exact .inl ⟨_, _, rfl⟩
    · rw [answered]
      cases woken <;> exact .inr (.inl ⟨answer, rfl⟩)
    · rw [gone]
      cases woken <;> exact .inr (.inr rfl)

namespace FairRun

variable {b : Behaviour (World.step chunkSize)}

theorem kept (run : FairRun b) (n : Nat) : (b.state n).Kept := by
  obtain ⟨actions, ran⟩ := b.reaches n
  rw [run.start] at ran
  exact Steps.run_invariant World.Kept (fun _ _ _ kept => kept.step) kept_start ran

theorem goes_on (run : FairRun b) {n : Nat} {ending : Ending}
    (leads : (b.state n).callers l = .leading key cell stage) (ended : stage.ending = some ending)
    (more : ∀ shared, (stage.next shared).isSome) : ∃ m, n ≤ m ∧ ∃ shared stage',
      stage.next shared = some stage' ∧ (b.state m).callers l = .leading key cell stage' := by
  refine (run.publishing l).leads (P := fun world => world.callers l = .leading key cell stage)
    (Q := fun world => ∃ shared stage', stage.next shared = some stage' ∧
      world.callers l = .leading key cell stage') ?_ ?_ ?_ leads
  · exact fun world leads => ⟨key, cell, stage, leads, more _⟩
  · intro world action next leads stepped
    rcases step_leader leads ended stepped with ⟨same, -⟩ | ⟨stage', h, leads'⟩
    · exact .inl same
    · exact .inr ⟨_, stage', h, leads'⟩
  · intro world action next leads publishes stepped
    rcases step_leader leads ended stepped with ⟨-, other⟩ | ⟨stage', h, leads'⟩
    · exact absurd publishes other
    · exact ⟨_, stage', h, leads'⟩

theorem wakes_all (run : FairRun b) {n : Nat} {ending : Ending} {left : List Nat}
    (leads : (b.state n).callers l = .leading key cell (.waking ending left)) :
    ∃ m, n ≤ m ∧ (b.state m).callers l = .leading key cell (.done ending) := by
  induction left generalizing n with
  | nil =>
    obtain ⟨m, le, shared, stage', h, leads'⟩ := run.goes_on leads rfl fun _ => rfl
    cases h
    exact ⟨m, le, leads'⟩
  | cons waker left ih =>
    obtain ⟨m, le, shared, stage', h, leads'⟩ := run.goes_on leads rfl fun _ => rfl
    cases h
    obtain ⟨m', le', done⟩ := ih leads'
    exact ⟨m', le.trans le', done⟩

/-- A fetch that is over is published to the end. -/
theorem finishes (run : FairRun b) {n : Nat} {ending : Ending}
    (leads : (b.state n).callers l = .leading key cell stage) (ended : stage.ending = some ending) :
    ∃ m, n ≤ m ∧ (b.state m).callers l = .leading key cell (.done ending) := by
  have unregistered {n : Nat} (leads : (b.state n).callers l =
      .leading key cell (.unregistered ending)) :
      ∃ m, n ≤ m ∧ (b.state m).callers l = .leading key cell (.done ending) := by
    obtain ⟨m, le, shared, stage', h, leads'⟩ := run.goes_on leads rfl fun _ => rfl
    cases h
    obtain ⟨m', le', done⟩ := run.wakes_all leads'
    exact ⟨m', le.trans le', done⟩
  cases stage with
  | fetching => cases ended
  | ended _ =>
    cases ended
    obtain ⟨m, le, shared, stage', h, leads'⟩ := run.goes_on leads rfl fun _ => rfl
    cases h
    obtain ⟨m', le', done⟩ := unregistered leads'
    exact ⟨m', le.trans le', done⟩
  | unregistered _ =>
    cases ended
    exact unregistered leads
  | waking _ left =>
    cases ended
    exact run.wakes_all leads
  | done _ =>
    cases ended
    exact ⟨n, le_refl n, leads⟩

/-- Whoever joined a cell whose fetch is over hears how it ended, or is dropped. -/
theorem hears (run : FairRun b) {n : Nat} {ending : Ending} (joined : (b.state n).Joined f key cell)
    (leads : (b.state n).callers l = .leading key cell stage) (ended : stage.ending = some ending) :
    ∃ m, n ≤ m ∧ ((b.state m).callers f = .answered key cell ending.answer ∨
      (b.state m).callers f = .gone) := by
  obtain ⟨m, le, done⟩ := run.finishes leads ended
  have heard {world : World} (kept : world.Kept) (done : world.callers l =
      .leading key cell (.done ending)) {answer : Answer}
      (answered : world.callers f = .answered key cell answer) : answer = ending.answer := by
    obtain ⟨l', stage, leads', published⟩ := kept.told f key cell answer answered
    obtain rfl := kept.sole l' l key key cell stage _ leads' done
    rw [done] at leads'
    cases leads'
    exact (Option.some.inj published).symm
  have still : (b.state m).Joined f key cell :=
    Behaviour.lasts (P := fun world : World => world.Joined f key cell)
      (fun _ _ _ joined stepped => joined.step stepped) le joined
  rcases still with waits | ⟨answer, answered⟩ | gone
  · suffices found : ∃ m', m ≤ m' ∧ ((b.state m').callers f = .answered key cell ending.answer ∨
        (b.state m').callers f = .gone) by
      obtain ⟨m', le', q⟩ := found
      exact ⟨m', le.trans le', q⟩
    refine (run.polling f).leads
      (P := fun world => world.Kept ∧ world.callers l = .leading key cell (.done ending) ∧
        ∃ waker woken, world.callers f = .following key cell waker woken)
      (Q := fun world => world.callers f = .answered key cell ending.answer ∨
        world.callers f = .gone) ?_ ?_ ?_ ⟨run.kept m, done, waits⟩
    · rintro world ⟨kept, done, waker, woken, waits⟩
      exact ⟨key, cell, waker, woken, waits, kept.due waits done⟩
    · rintro world action next ⟨kept, done, waits⟩ stepped
      have done' : next.callers l = .leading key cell (.done ending) := by
        rcases step_leader done rfl stepped with ⟨same, -⟩ | ⟨stage', h, -⟩
        · exact same
        · cases h
      rcases Joined.step (.inl waits) stepped with waits | ⟨answer, answered⟩ | gone
      · exact .inl ⟨kept.step stepped, done', waits⟩
      · rw [heard (kept.step stepped) done' answered] at answered
        exact .inr (.inl answered)
      · exact .inr (.inr gone)
    · rintro world action next ⟨kept, done, waker, woken, waits⟩ serves stepped
      rcases serves with ⟨mine, rfl⟩ | rfl
      · rw [kept.poll_eq waits done] at stepped
        cases stepped
        exact .inl (Function.update_self ..)
      · dsimp only [World.step] at stepped
        rw [waits] at stepped
        cases stepped
        exact .inr (Function.update_self ..)
  · rw [heard (run.kept m) done answered] at answered
    exact ⟨m, le, .inl answered⟩
  · exact ⟨m, le, .inr gone⟩

end FairRun

end World

/-- In every run there is one fetch at a time for each chunk, whoever was answered was answered as
the fetch it joined ended, and a leader's registration is taken away once and by itself. Where
guards finish and woken tasks are polled, nobody waits for a fetch that is over. -/
theorem single_flight (chunkSize : Nat) :
    (∀ actions world, Steps.run (World.step chunkSize) {} actions = some world →
      world.SingleFlight) ∧
    ∀ b : Behaviour (World.step chunkSize), World.FairRun b → ∀ n f l key cell stage ending,
      (b.state n).Joined f key cell → (b.state n).callers l = .leading key cell stage →
      stage.ending = some ending → ∃ m, n ≤ m ∧
        ((b.state m).callers f = .answered key cell ending.answer ∨ (b.state m).callers f = .gone) :=
  ⟨fun _ _ ran => (Steps.run_invariant World.Kept (fun _ _ _ kept => kept.step) kept_start
    ran).singleFlight, fun _ run _ _ _ _ _ _ _ joined leads ended => run.hears joined leads ended⟩

/-- The first caller is dropped, and the third fetches the chunk again before the answer that the
second waits for is published. -/
def droppedRun : List Action := [
  .call 0 ⟨"o"⟩ 3 10, .call 1 ⟨"o"⟩ 3 10, .poll 1 7, .dropLeader 0, .remove 0, .call 2 ⟨"o"⟩ 3 10,
  .publish 0, .wake 0, .wake 0, .poll 1 7, .fetched 2 (.ok [1]), .remove 2, .publish 2, .wake 2]

theorem World.run_outside {chunkSize : Nat} {s t : World} {actions : List Action} {f : Nat}
    (ran : Steps.run (World.step chunkSize) s actions = some t) (outside : s.callers f = .outside)
    (others : ∀ action ∈ actions, f ≠ action.caller) : t.callers f = .outside := by
  induction actions generalizing s with
  | nil =>
    cases ran
    exact outside
  | cons action rest ih =>
    obtain ⟨mid, stepped, ran⟩ := Steps.run_cons.mp ran
    obtain ⟨woken, same⟩ := step_elsewhere stepped (others action (List.mem_cons_self ..))
    refine ih ran ?_ fun action h => others action (List.mem_cons_of_mem _ h)
    rw [same, outside]
    cases woken <;> rfl

theorem droppedRun_ends : ∃ t, Steps.run (World.step 10) {} droppedRun = some t ∧
    t.callers 0 = .leading ⟨⟨"o"⟩, 3, 10⟩ 0 (.done .dropped) ∧
    t.callers 1 = .answered ⟨⟨"o"⟩, 3, 10⟩ 0 (.error .transient) ∧
    t.callers 2 = .leading ⟨⟨"o"⟩, 3, 10⟩ 1 (.done (.finished (.ok [1]))) :=
  ⟨_, rfl, rfl, rfl, rfl⟩

/-- At its end nothing is left to do for anyone. -/
theorem droppedRun_quiet {t : World} (ran : Steps.run (World.step 10) {} droppedRun = some t) (i : Nat) :
    ¬ t.Publishing i ∧ ¬ t.Due i := by
  obtain ⟨t', ran', zero, one, two⟩ := droppedRun_ends
  rw [ran] at ran'
  cases ran'
  have others (i : Nat) : t.callers (i + 3) = .outside :=
    World.run_outside ran rfl (by simp [droppedRun, Action.caller])
  constructor
  · rintro ⟨key, cell, stage, h, more⟩
    match i with
    | 0 =>
      rw [zero] at h
      cases h
      cases more
    | 1 =>
      rw [one] at h
      cases h
    | 2 =>
      rw [two] at h
      cases h
      cases more
    | i + 3 =>
      rw [others] at h
      cases h
  · rintro ⟨key, cell, waker, woken, h, -⟩
    match i with
    | 0 =>
      rw [zero] at h
      cases h
    | 1 =>
      rw [one] at h
      cases h
    | 2 =>
      rw [two] at h
      cases h
    | i + 3 =>
      rw [others] at h
      cases h

theorem droppedRun_fair {t : World} (ran : Steps.run (World.step 10) {} droppedRun = some t) :
    World.FairRun (Behaviour.ofRun ran) where
  start := rfl
  publishing := fun l => Behaviour.ofRun_fair ran (droppedRun_quiet ran l).1 _
  polling := fun f => Behaviour.ofRun_fair ran (droppedRun_quiet ran f).2 _

theorem single_flight_dropped : ∃ (t : World)
    (ran : Steps.run (World.step 10) {} droppedRun = some t), t.SingleFlight ∧
      ∃ m, 4 ≤ m ∧ (((Behaviour.ofRun ran).state m).callers 1 =
        .answered ⟨⟨"o"⟩, 3, 10⟩ 0 (.error .transient) ∨
          ((Behaviour.ofRun ran).state m).callers 1 = .gone) := by
  obtain ⟨t, ran, -⟩ := droppedRun_ends
  refine ⟨t, ran, (single_flight 10).1 droppedRun t ran, ?_⟩
  exact (single_flight 10).2 _ (droppedRun_fair ran) 4 1 0 _ _ _ .dropped
    (.inl ⟨some 7, false, rfl⟩) rfl rfl

end Chunk

end Oqueue
