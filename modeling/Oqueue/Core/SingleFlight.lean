import Oqueue.Core.Chunk
import Oqueue.Library.Steps
import Oqueue.Library.Table

/-!
# One fetch for each chunk

A cell belongs to the leader that made it. Whatever order callers join, poll,
are dropped and publish in, the leader's registration stays its own until it
takes it away, and a follower is in the cell's wakers until it is woken.
-/

namespace Oqueue

namespace Chunk

/-- Whether the key's registration is still this leader's. -/
def Stage.Registered : Stage → Prop
  | .fetching | .ended _ => True
  | .unregistered _ | .waking .. | .done _ => False

def Stage.ending : Stage → Option Ending
  | .fetching => none
  | .ended ending | .unregistered ending | .waking ending _ | .done ending => some ending

/-- What the leader has put in its cell. -/
def Stage.published : Stage → Option Answer
  | .fetching | .ended _ | .unregistered _ => none
  | .waking ending _ | .done ending => some ending.answer

/-- Whether the leader will still wake this waker. -/
def Stage.Wakes (stage : Stage) (shared : Shared) (waker : Nat) : Prop :=
  match stage with
  | .fetching | .ended _ | .unregistered _ => waker ∈ shared.wakers
  | .waking _ left => waker ∈ left
  | .done _ => False

def Caller.Leads (caller : Caller) : Prop := ∃ key cell stage, caller = .leading key cell stage

/-- A cell has one leader, who is registered until it publishes, and who will wake whoever
waits without having been woken. -/
structure World.Kept (world : World) : Prop where
  made : ∀ i key cell stage, world.callers i = .leading key cell stage → cell < world.cells
  sole : ∀ i j key key' cell stage stage', world.callers i = .leading key cell stage →
    world.callers j = .leading key' cell stage' → i = j
  registered : ∀ key cell, world.inFlight.lookup key = some cell ↔
    ∃ i stage, world.callers i = .leading key cell stage ∧ stage.Registered
  published : ∀ i key cell stage, world.callers i = .leading key cell stage →
    (world.shared cell).result = stage.published
  joined : ∀ f key cell waker woken, world.callers f = .following key cell waker woken →
    ∃ i stage, world.callers i = .leading key cell stage ∧
      ∀ mine, waker = some mine → woken = false → stage.Wakes (world.shared cell) mine
  told : ∀ f key cell answer, world.callers f = .answered key cell answer →
    ∃ i stage, world.callers i = .leading key cell stage ∧ stage.published = some answer
  once : world.removed.Nodup
  removed : ∀ cell, cell ∈ world.removed ↔
    ∃ i key stage, world.callers i = .leading key cell stage ∧ ¬ stage.Registered

theorem Stage.Wakes.more {stage : Stage} {shared shared' : Shared} {waker : Nat}
    (wakes : stage.Wakes shared waker) (more : shared.wakers ⊆ shared'.wakers) :
    stage.Wakes shared' waker := by
  cases stage with
  | fetching => exact more wakes
  | ended _ => exact more wakes
  | unregistered _ => exact more wakes
  | waking _ _ => exact wakes
  | done _ => exact wakes

theorem Shared.wait_result (shared : Shared) (waker : Nat) : (shared.wait waker).result = shared.result := by
  unfold wait
  split <;> rfl

theorem Shared.wait_wakers (shared : Shared) (waker : Nat) :
    shared.wakers ⊆ (shared.wait waker).wakers ∧ waker ∈ (shared.wait waker).wakers := by
  unfold wait
  split
  · rename_i known
    exact ⟨List.Subset.refl _, known⟩
  · exact ⟨List.subset_append_left .., List.mem_append_right _ (List.mem_singleton_self _)⟩

theorem Stage.wakes_of_unpublished {stage : Stage} {shared : Shared} {waker : Nat}
    (unpublished : stage.published = none) (known : waker ∈ shared.wakers) :
    stage.Wakes shared waker := by
  cases stage with
  | fetching => exact known
  | ended _ => exact known
  | unregistered _ => exact known
  | waking _ _ => cases unpublished
  | done _ => cases unpublished

theorem Stage.published_eq_some {stage : Stage} {answer : Answer} (h : stage.published = some answer) :
    ∃ ending, stage.ending = some ending ∧ answer = ending.answer := by
  cases stage with
  | fetching => cases h
  | ended _ => cases h
  | unregistered _ => cases h
  | waking ending _ => exact ⟨ending, rfl, (Option.some.inj h).symm⟩
  | done ending => exact ⟨ending, rfl, (Option.some.inj h).symm⟩

theorem kept_start : World.Kept {} := by
  have outside {i : Nat} {key : ChunkKey} {cell : Nat} {stage : Stage} :
      ({} : World).callers i ≠ .leading key cell stage := nofun
  have empty (key : ChunkKey) (cell : Nat) : ({} : World).inFlight.lookup key ≠ some cell := by
    rw [show ({} : World).inFlight.lookup key = none from Finmap.lookup_empty key]
    exact nofun
  constructor
  · exact fun i key cell stage h => absurd h outside
  · exact fun i j key key' cell stage stage' h => absurd h outside
  · exact fun key cell => iff_of_false (empty key cell) fun ⟨_, _, h, _⟩ => outside h
  · exact fun i key cell stage h => absurd h outside
  · exact fun f key cell waker woken h => nomatch h
  · exact fun f key cell answer h => nomatch h
  · exact List.nodup_nil
  · exact fun cell => iff_of_false List.not_mem_nil fun ⟨_, _, _, h, _⟩ => outside h

namespace World

variable {world next : World}

/-- Someone who does not lead goes elsewhere, and leads nothing there. -/
structure Follows (world next : World) (i : Nat) (place : Caller) : Prop where
  callers : next.callers = Function.update world.callers i place
  inFlight : next.inFlight = world.inFlight
  cells : next.cells = world.cells
  removed : next.removed = world.removed
  result : ∀ cell, (next.shared cell).result = (world.shared cell).result
  wakers : ∀ cell, (world.shared cell).wakers ⊆ (next.shared cell).wakers
  before : ¬ (world.callers i).Leads
  after : ¬ place.Leads
  joined : ∀ key cell waker woken, place = .following key cell waker woken →
    ∃ l stage, world.callers l = .leading key cell stage ∧
      ∀ mine, waker = some mine → woken = false → stage.Wakes (next.shared cell) mine
  told : ∀ key cell answer, place = .answered key cell answer →
    ∃ l stage, world.callers l = .leading key cell stage ∧ stage.published = some answer

namespace Follows

variable {i : Nat} {place : Caller}

theorem leading_iff (follows : world.Follows next i place) {l : Nat} {key : ChunkKey} {cell : Nat}
    {stage : Stage} : next.callers l = .leading key cell stage ↔
      world.callers l = .leading key cell stage := by
  rw [follows.callers]
  by_cases same : l = i
  · subst same
    rw [Function.update_self]
    exact iff_of_false (fun h => follows.after ⟨_, _, _, h⟩) fun h => follows.before ⟨_, _, _, h⟩
  · rw [Function.update_of_ne same]

theorem kept_next (kept : world.Kept) (follows : world.Follows next i place) : next.Kept where
  made := by
    intro l key cell stage h
    rw [follows.cells]
    exact kept.made l key cell stage (follows.leading_iff.mp h)
  sole := by
    intro l l' key key' cell stage stage' h h'
    exact kept.sole l l' key key' cell stage stage' (follows.leading_iff.mp h)
      (follows.leading_iff.mp h')
  registered := by
    intro key cell
    simp only [follows.inFlight, follows.leading_iff]
    exact kept.registered key cell
  published := by
    intro l key cell stage h
    rw [follows.result]
    exact kept.published l key cell stage (follows.leading_iff.mp h)
  joined := by
    intro f key cell waker woken h
    simp only [follows.leading_iff]
    rw [follows.callers] at h
    by_cases same : f = i
    · subst same
      rw [Function.update_self] at h
      exact follows.joined key cell waker woken h
    · rw [Function.update_of_ne same] at h
      obtain ⟨l, stage, leads, wakes⟩ := kept.joined f key cell waker woken h
      exact ⟨l, stage, leads, fun mine h h' => (wakes mine h h').more (follows.wakers cell)⟩
  told := by
    intro f key cell answer h
    simp only [follows.leading_iff]
    rw [follows.callers] at h
    by_cases same : f = i
    · subst same
      rw [Function.update_self] at h
      exact follows.told key cell answer h
    · rw [Function.update_of_ne same] at h
      exact kept.told f key cell answer h
  once := follows.removed ▸ kept.once
  removed := by
    intro cell
    simp only [follows.removed, follows.leading_iff]
    exact kept.removed cell

end Follows

/-- A leader moves on, and wakes those who wait under a waker, if any. -/
structure Advances (world next : World) (l : Nat) (key : ChunkKey) (cell : Nat)
    (stage stage' : Stage) (woken : Option Nat) : Prop where
  leads : world.callers l = .leading key cell stage
  leader : next.callers l = .leading key cell stage'
  others : ∀ f, f ≠ l → next.callers f = woken.elim id Caller.wake (world.callers f)
  inFlight : ∀ k c, next.inFlight.lookup k = some c ↔
    world.inFlight.lookup k = some c ∧ (c = cell → stage'.Registered)
  cells : next.cells = world.cells
  published : (next.shared cell).result = stage'.published
  shared : ∀ c, c ≠ cell → next.shared c = world.shared c
  wakes : ∀ mine, woken ≠ some mine → stage.Wakes (world.shared cell) mine →
    stage'.Wakes (next.shared cell) mine
  later : ∀ answer, stage.published = some answer → stage'.published = some answer
  registered : stage'.Registered → stage.Registered
  removed : (stage.Registered ∧ ¬ stage'.Registered ∧ next.removed = cell :: world.removed) ∨
    ((stage.Registered → stage'.Registered) ∧ next.removed = world.removed)

theorem wake_eq_leading {caller : Caller} {waker : Nat} {key : ChunkKey} {cell : Nat}
    {stage : Stage} : caller.wake waker = .leading key cell stage ↔
      caller = .leading key cell stage := by
  cases caller with
  | following key cell mine woken => cases mine <;> exact iff_of_false nofun nofun
  | _ => rfl

theorem wake_eq_answered {caller : Caller} {waker : Nat} {key : ChunkKey} {cell : Nat}
    {answer : Answer} : caller.wake waker = .answered key cell answer ↔
      caller = .answered key cell answer := by
  cases caller with
  | following key cell mine woken => cases mine <;> exact iff_of_false nofun nofun
  | _ => rfl

theorem wake_eq_following {caller : Caller} {waker : Nat} {key : ChunkKey} {cell : Nat}
    {mine : Option Nat} {woken : Bool} (h : caller.wake waker = .following key cell mine woken) :
    ∃ before, caller = .following key cell mine before ∧
      (woken = false → before = false ∧ mine ≠ some waker) := by
  cases caller with
  | following key' cell' mine' before =>
    cases mine' with
    | none =>
      cases h
      exact ⟨woken, rfl, fun still => ⟨still, nofun⟩⟩
    | some mine' =>
      cases h
      refine ⟨before, rfl, fun still => ?_⟩
      rw [Bool.or_eq_false_iff, decide_eq_false_iff_not] at still
      exact ⟨still.1, fun same => still.2 (Option.some.inj same)⟩
  | _ => cases h

namespace Advances

variable {l : Nat} {key : ChunkKey} {cell : Nat} {stage stage' : Stage} {woken : Option Nat}

theorem leading_iff (advances : world.Advances next l key cell stage stage' woken) {i : Nat}
    {k : ChunkKey} {c : Nat} {st : Stage} : next.callers i = .leading k c st ↔
      (i ≠ l ∧ world.callers i = .leading k c st) ∨ (i = l ∧ k = key ∧ c = cell ∧ st = stage') := by
  by_cases same : i = l
  · subst same
    rw [advances.leader]
    constructor
    · intro h
      cases h
      exact .inr ⟨rfl, rfl, rfl, rfl⟩
    · rintro (⟨ne, -⟩ | ⟨-, rfl, rfl, rfl⟩)
      · exact absurd rfl ne
      · rfl
  · rw [advances.others i same]
    have other : woken.elim id Caller.wake (world.callers i) = .leading k c st ↔
        world.callers i = .leading k c st := by
      cases woken with
      | none => rfl
      | some waker => exact wake_eq_leading
    rw [other]
    exact ⟨fun h => .inl ⟨same, h⟩, fun h => h.elim And.right fun h => absurd h.1 same⟩

theorem leader_after (advances : world.Advances next l key cell stage stage' woken) {i : Nat}
    {k : ChunkKey} {c : Nat} {st : Stage} (h : world.callers i = .leading k c st) :
    ∃ st', next.callers i = .leading k c st' ∧
      (∀ answer, st.published = some answer → st'.published = some answer) := by
  by_cases same : i = l
  · subst same
    rw [advances.leads] at h
    cases h
    exact ⟨stage', advances.leader, advances.later⟩
  · exact ⟨st, advances.leading_iff.mpr (.inl ⟨same, h⟩), fun _ h => h⟩

theorem sole (advances : world.Advances next l key cell stage stage' woken) (kept : world.Kept) :
    ∀ i j k k' c st st', next.callers i = .leading k c st → next.callers j = .leading k' c st' →
      i = j := by
  intro i j k k' c st st' h h'
  rcases advances.leading_iff.mp h with ⟨-, h⟩ | ⟨rfl, rfl, rfl, rfl⟩
  · rcases advances.leading_iff.mp h' with ⟨-, h'⟩ | ⟨rfl, rfl, rfl, rfl⟩
    · exact kept.sole i j k k' c st st' h h'
    · exact kept.sole i j k _ _ st _ h advances.leads
  · rcases advances.leading_iff.mp h' with ⟨-, h'⟩ | ⟨rfl, rfl, -, rfl⟩
    · exact kept.sole i j _ k' _ _ st' advances.leads h'
    · rfl

theorem registered_iff (advances : world.Advances next l key cell stage stage' woken)
    (kept : world.Kept) (k : ChunkKey) (c : Nat) : next.inFlight.lookup k = some c ↔
      ∃ i st, next.callers i = .leading k c st ∧ st.Registered := by
  rw [advances.inFlight, kept.registered]
  constructor
  · rintro ⟨⟨i, st, h, registered⟩, still⟩
    by_cases same : i = l
    · subst same
      rw [advances.leads] at h
      cases h
      exact ⟨i, stage', advances.leader, still rfl⟩
    · exact ⟨i, st, advances.leading_iff.mpr (.inl ⟨same, h⟩), registered⟩
  · rintro ⟨i, st, h, registered⟩
    rcases advances.leading_iff.mp h with ⟨other, h⟩ | ⟨rfl, rfl, rfl, rfl⟩
    · refine ⟨⟨i, st, h, registered⟩, ?_⟩
      rintro rfl
      exact absurd (kept.sole i l k key c st stage h advances.leads) other
    · exact ⟨⟨i, stage, advances.leads, advances.registered registered⟩, fun _ => registered⟩

theorem result_eq (advances : world.Advances next l key cell stage stage' woken)
    (kept : world.Kept) : ∀ i k c st, next.callers i = .leading k c st →
      (next.shared c).result = st.published := by
  intro i k c st h
  rcases advances.leading_iff.mp h with ⟨other, h⟩ | ⟨rfl, rfl, rfl, rfl⟩
  · have apart : c ≠ cell := by
      rintro rfl
      exact other (kept.sole i l k key c st stage h advances.leads)
    rw [advances.shared c apart]
    exact kept.published i k c st h
  · exact advances.published

/-- Who waits unwoken will be woken by its leader still. -/
theorem joined (advances : world.Advances next l key cell stage stage' woken)
    (kept : world.Kept) : ∀ f k c waker woke, next.callers f = .following k c waker woke →
      ∃ i st, next.callers i = .leading k c st ∧
        ∀ mine, waker = some mine → woke = false → st.Wakes (next.shared c) mine := by
  intro f k c waker woke h
  have other : f ≠ l := by
    rintro rfl
    rw [advances.leader] at h
    cases h
  rw [advances.others f other] at h
  obtain ⟨before, waited, unwoken⟩ : ∃ before, world.callers f = .following k c waker before ∧
      (woke = false → before = false ∧ ∀ mine, waker = some mine → woken ≠ some mine) := by
    cases woken with
    | none => exact ⟨woke, h, fun still => ⟨still, fun _ _ => nofun⟩⟩
    | some waker' =>
      obtain ⟨before, waited, unwoken⟩ := wake_eq_following h
      refine ⟨before, waited, fun still => ⟨(unwoken still).1, ?_⟩⟩
      rintro mine rfl ⟨⟩
      exact (unwoken still).2 rfl
  obtain ⟨i, st, leads, wakes⟩ := kept.joined f k c waker before waited
  by_cases same : i = l
  · subst same
    rw [advances.leads] at leads
    cases leads
    refine ⟨i, stage', advances.leader, fun mine h still => ?_⟩
    obtain ⟨still, apart⟩ := unwoken still
    exact advances.wakes mine (apart mine h) (wakes mine h still)
  · refine ⟨i, st, advances.leading_iff.mpr (.inl ⟨same, leads⟩), fun mine h still => ?_⟩
    have apart : c ≠ cell := by
      rintro rfl
      exact same (kept.sole i l k key c st stage leads advances.leads)
    rw [advances.shared c apart]
    exact wakes mine h (unwoken still).1

theorem told (advances : world.Advances next l key cell stage stage' woken)
    (kept : world.Kept) : ∀ f k c answer, next.callers f = .answered k c answer →
      ∃ i st, next.callers i = .leading k c st ∧ st.published = some answer := by
  intro f k c answer h
  have other : f ≠ l := by
    rintro rfl
    rw [advances.leader] at h
    cases h
  rw [advances.others f other] at h
  have before : world.callers f = .answered k c answer := by
    cases woken with
    | none => exact h
    | some waker => exact wake_eq_answered.mp h
  obtain ⟨i, st, leads, published⟩ := kept.told f k c answer before
  obtain ⟨st', leads', later⟩ := advances.leader_after leads
  exact ⟨i, st', leads', later answer published⟩

theorem removed_nodup (advances : world.Advances next l key cell stage stage' woken)
    (kept : world.Kept) : next.removed.Nodup := by
  rcases advances.removed with ⟨registered, -, same⟩ | ⟨-, same⟩
  · rw [same, List.nodup_cons]
    refine ⟨fun member => ?_, kept.once⟩
    obtain ⟨i, k, st, h, gone⟩ := (kept.removed cell).mp member
    obtain rfl := kept.sole i l k key cell st stage h advances.leads
    rw [advances.leads] at h
    cases h
    exact gone registered
  · exact same ▸ kept.once

/-- The cells taken away are those whose leader is past its registration. -/
theorem mem_removed (advances : world.Advances next l key cell stage stage' woken)
    (kept : world.Kept) (c : Nat) : c ∈ next.removed ↔
      ∃ i k st, next.callers i = .leading k c st ∧ ¬ st.Registered := by
  have others (apart : c ≠ cell) : c ∈ world.removed ↔
      ∃ i k st, next.callers i = .leading k c st ∧ ¬ st.Registered := by
    rw [kept.removed]
    constructor
    · rintro ⟨i, k, st, h, gone⟩
      refine ⟨i, k, st, advances.leading_iff.mpr (.inl ⟨?_, h⟩), gone⟩
      rintro rfl
      rw [advances.leads] at h
      cases h
      exact apart rfl
    · rintro ⟨i, k, st, h, gone⟩
      rcases advances.leading_iff.mp h with ⟨-, h⟩ | ⟨-, -, same, -⟩
      · exact ⟨i, k, st, h, gone⟩
      · exact absurd same apart
  have own (gone : ¬ stage'.Registered) (member : c ∈ next.removed) (same : c = cell) :
      c ∈ next.removed ↔ ∃ i k st, next.callers i = .leading k c st ∧ ¬ st.Registered :=
    iff_of_true member ⟨l, key, stage', same ▸ advances.leader, gone⟩
  rcases advances.removed with ⟨registered, gone, same⟩ | ⟨still, same⟩
  · by_cases apart : c = cell
    · exact own gone (same ▸ apart ▸ List.mem_cons_self ..) apart
    · rw [same, List.mem_cons, or_iff_right apart]
      exact others apart
  · by_cases apart : c = cell
    · subst apart
      rw [same, kept.removed]
      constructor
      · rintro ⟨i, k, st, h, gone⟩
        obtain rfl := kept.sole i l k key c st stage h advances.leads
        rw [advances.leads] at h
        cases h
        exact ⟨i, key, stage', advances.leader, fun registered =>
          gone (advances.registered registered)⟩
      · rintro ⟨i, k, st, h, gone⟩
        rcases advances.leading_iff.mp h with ⟨other, h⟩ | ⟨rfl, rfl, -, rfl⟩
        · exact ⟨i, k, st, h, gone⟩
        · exact ⟨i, _, stage, advances.leads, fun registered => gone (still registered)⟩
    · rw [same]
      exact others apart

theorem kept_next (kept : world.Kept)
    (advances : world.Advances next l key cell stage stage' woken) : next.Kept where
  made := by
    intro i k c st h
    rw [advances.cells]
    rcases advances.leading_iff.mp h with ⟨-, h⟩ | ⟨rfl, rfl, rfl, rfl⟩
    · exact kept.made i k c st h
    · exact kept.made i _ _ _ advances.leads
  sole := advances.sole kept
  registered := advances.registered_iff kept
  published := advances.result_eq kept
  joined := advances.joined kept
  told := advances.told kept
  once := advances.removed_nodup kept
  removed := advances.mem_removed kept

end Advances

/-- A caller that finds no registration leads a cell of its own. -/
theorem Kept.lead (kept : world.Kept) {i : Nat} {key : ChunkKey} (outside : world.callers i = .outside)
    (unregistered : world.inFlight.lookup key = none) : (world.joinOrLead i key).Kept := by
  have led : world.joinOrLead i key =
      { world with
        inFlight := world.inFlight.insert key world.cells
        cells := world.cells + 1
        shared := Function.update world.shared world.cells {}
        callers := Function.update world.callers i (.leading key world.cells .fetching) } := by
    rw [joinOrLead, unregistered]
  rw [led]
  have leading_iff {l : Nat} {k : ChunkKey} {c : Nat} {st : Stage} :
      Function.update world.callers i (.leading key world.cells .fetching) l = .leading k c st ↔
        world.callers l = .leading k c st ∨
          (l = i ∧ k = key ∧ c = world.cells ∧ st = .fetching) := by
    by_cases same : l = i
    · subst same
      rw [Function.update_self, outside]
      constructor
      · rintro ⟨⟩
        exact .inr ⟨rfl, rfl, rfl, rfl⟩
      · rintro (h | ⟨-, rfl, rfl, rfl⟩)
        · cases h
        · rfl
    · rw [Function.update_of_ne same]
      exact ⟨.inl, fun h => h.elim id fun h => absurd h.1 same⟩
  have old {l : Nat} {k : ChunkKey} {c : Nat} {st : Stage}
      (h : world.callers l = .leading k c st) : c ≠ world.cells := (kept.made l k c st h).ne
  have follower {f : Nat} {caller : Caller} (h : Function.update world.callers i
      (.leading key world.cells .fetching) f = caller) (idle : ¬ caller.Leads) :
      world.callers f = caller := by
    by_cases same : f = i
    · subst same
      rw [Function.update_self] at h
      exact absurd ⟨_, _, _, h.symm⟩ idle
    · rw [Function.update_of_ne same] at h
      exact h
  constructor
  · intro l k c st h
    rcases leading_iff.mp h with h | ⟨-, -, rfl, -⟩
    · exact Nat.lt_succ_of_lt (kept.made l k c st h)
    · exact Nat.lt_succ_self _
  · intro l l' k k' c st st' h h'
    rcases leading_iff.mp h with h | ⟨rfl, -, rfl, -⟩
    · rcases leading_iff.mp h' with h' | ⟨-, -, rfl, -⟩
      · exact kept.sole l l' k k' c st st' h h'
      · exact absurd rfl (old h)
    · rcases leading_iff.mp h' with h' | ⟨rfl, -, -, -⟩
      · exact absurd rfl (old h')
      · rfl
  · intro k c
    have inserted := Table.lookup_insert_eq world.inFlight key k world.cells
    dsimp only
    rw [inserted]
    by_cases same : k = key
    · subst same
      rw [if_pos rfl, Option.some.injEq]
      constructor
      · rintro rfl
        exact ⟨i, .fetching, leading_iff.mpr (.inr ⟨rfl, rfl, rfl, rfl⟩), trivial⟩
      · rintro ⟨l, st, h, registered⟩
        rcases leading_iff.mp h with h | ⟨-, -, rfl, -⟩
        · have known := (kept.registered k c).mpr ⟨l, st, h, registered⟩
          rw [unregistered] at known
          cases known
        · rfl
    · rw [if_neg same, kept.registered]
      constructor
      · rintro ⟨l, st, h, registered⟩
        exact ⟨l, st, leading_iff.mpr (.inl h), registered⟩
      · rintro ⟨l, st, h, registered⟩
        rcases leading_iff.mp h with h | ⟨-, rfl, -, -⟩
        · exact ⟨l, st, h, registered⟩
        · exact absurd rfl same
  · intro l k c st h
    rcases leading_iff.mp h with h | ⟨-, -, rfl, rfl⟩
    · dsimp only
      rw [Function.update_of_ne (old h)]
      exact kept.published l k c st h
    · dsimp only
      rw [Function.update_self]
      rfl
  · intro f k c waker woken h
    obtain ⟨l, st, leads, wakes⟩ := kept.joined f k c waker woken
      (follower h fun ⟨_, _, _, h⟩ => nomatch h)
    refine ⟨l, st, leading_iff.mpr (.inl leads), fun mine h still => ?_⟩
    dsimp only
    rw [Function.update_of_ne (old leads)]
    exact wakes mine h still
  · intro f k c answer h
    obtain ⟨l, st, leads, published⟩ := kept.told f k c answer
      (follower h fun ⟨_, _, _, h⟩ => nomatch h)
    exact ⟨l, st, leading_iff.mpr (.inl leads), published⟩
  · exact kept.once
  · intro c
    dsimp only
    rw [kept.removed]
    constructor
    · rintro ⟨l, k, st, h, gone⟩
      exact ⟨l, k, st, leading_iff.mpr (.inl h), gone⟩
    · rintro ⟨l, k, st, h, gone⟩
      rcases leading_iff.mp h with h | ⟨-, -, -, rfl⟩
      · exact ⟨l, k, st, h, gone⟩
      · exact absurd trivial gone

theorem follows_goTo {i : Nat} {place : Caller} (before : ¬ (world.callers i).Leads)
    (after : ¬ place.Leads) (joined : ∀ key cell waker woken, place = .following key cell waker woken →
      ∃ l stage, world.callers l = .leading key cell stage ∧
        ∀ mine, waker = some mine → woken = false → stage.Wakes (world.shared cell) mine)
    (told : ∀ key cell answer, place = .answered key cell answer →
      ∃ l stage, world.callers l = .leading key cell stage ∧ stage.published = some answer) :
    world.Follows (world.goTo i place) i place :=
  ⟨rfl, rfl, rfl, rfl, fun _ => rfl, fun _ _ h => h, before, after, joined, told⟩

theorem Kept.poll (kept : world.Kept) {i waker : Nat} {key : ChunkKey} {cell : Nat}
    {before : Option Nat} {woken : Bool} (waits : world.callers i = .following key cell before woken)
    (unset : (world.shared cell).result = none) :
    ((world.setShared cell ((world.shared cell).wait waker)).goTo i
      (.following key cell (some waker) false)).Kept := by
  obtain ⟨l, stage, leads, -⟩ := kept.joined i key cell before woken waits
  have at_cell : Function.update world.shared cell ((world.shared cell).wait waker) cell =
      (world.shared cell).wait waker := Function.update_self ..
  have elsewhere {c : Nat} (apart : c ≠ cell) :
      Function.update world.shared cell ((world.shared cell).wait waker) c = world.shared c :=
    Function.update_of_ne apart ..
  refine Follows.kept_next kept (i := i) ⟨rfl, rfl, rfl, rfl, ?_, ?_, ?_, nofun, ?_, nofun⟩
  · intro c
    change (Function.update world.shared cell _ c).result = _
    by_cases apart : c = cell
    · rw [apart, at_cell, Shared.wait_result]
    · rw [elsewhere apart]
  · intro c
    change _ ⊆ (Function.update world.shared cell _ c).wakers
    by_cases apart : c = cell
    · rw [apart, at_cell]
      exact ((world.shared cell).wait_wakers waker).1
    · rw [elsewhere apart]
      exact List.Subset.refl _
  · rintro ⟨_, _, _, h⟩
    rw [waits] at h
    cases h
  · rintro _ _ _ _ ⟨⟩
    refine ⟨l, stage, leads, ?_⟩
    rintro _ ⟨⟩ -
    change stage.Wakes (Function.update world.shared cell _ cell) waker
    rw [at_cell]
    apply Stage.wakes_of_unpublished
    · rw [← kept.published l key cell stage leads, unset]
    · exact ((world.shared cell).wait_wakers waker).2

theorem Kept.own (kept : world.Kept) {l : Nat} {key : ChunkKey} {cell : Nat} {stage : Stage}
    (leads : world.callers l = .leading key cell stage) {k : ChunkKey}
    (h : world.inFlight.lookup k = some cell) : k = key ∧ stage.Registered := by
  obtain ⟨i, st, leads', registered⟩ := (kept.registered k cell).mp h
  obtain rfl := kept.sole i l k key cell st stage leads' leads
  rw [leads] at leads'
  cases leads'
  exact ⟨rfl, registered⟩

/-- A leader's move that leaves its cell and the registry alone. -/
theorem Kept.advance (kept : world.Kept) {l : Nat} {key : ChunkKey} {cell : Nat}
    {stage stage' : Stage} (leads : world.callers l = .leading key cell stage)
    (published : stage.published = stage'.published)
    (wakes : ∀ mine, stage.Wakes (world.shared cell) mine → stage'.Wakes (world.shared cell) mine)
    (same : stage.Registered ↔ stage'.Registered) :
    world.Advances (world.goTo l (.leading key cell stage')) l key cell stage stage' none where
  leads := leads
  leader := Function.update_self ..
  others := fun _ other => Function.update_of_ne other ..
  inFlight := by
    intro k c
    refine ⟨fun h => ⟨h, ?_⟩, And.left⟩
    rintro rfl
    exact same.mp (kept.own leads h).2
  cells := rfl
  published := (kept.published l key cell stage leads).trans published
  shared := fun _ _ => rfl
  wakes := fun mine _ => wakes mine
  later := fun _ h => published ▸ h
  registered := same.mpr
  removed := .inr ⟨same.mp, rfl⟩

theorem Kept.remove (kept : world.Kept) {l : Nat} {key : ChunkKey} {cell : Nat} {ending : Ending}
    (leads : world.callers l = .leading key cell (.ended ending)) :
    world.Advances ((world.unregister key).goTo l (.leading key cell (.unregistered ending)))
      l key cell (.ended ending) (.unregistered ending) none where
  leads := leads
  leader := Function.update_self ..
  others := fun _ other => Function.update_of_ne other ..
  inFlight := by
    intro k c
    change (world.inFlight.erase key).lookup k = some c ↔ _
    rw [Table.lookup_erase_eq]
    have known := (kept.registered key cell).mpr ⟨l, _, leads, trivial⟩
    by_cases same : k = key
    · subst same
      rw [if_pos rfl, known]
      exact iff_of_false nofun fun h => h.2 (Option.some.inj h.1).symm
    · rw [if_neg same]
      refine ⟨fun h => ⟨h, ?_⟩, And.left⟩
      rintro rfl
      exact absurd (kept.own leads h).1 same
  cells := rfl
  published := kept.published l key cell (.ended ending) leads
  shared := fun _ _ => rfl
  wakes := fun _ _ h => h
  later := nofun
  registered := False.elim
  removed := by
    have known := (kept.registered key cell).mpr ⟨l, _, leads, trivial⟩
    refine .inl ⟨trivial, id, ?_⟩
    change (world.inFlight.lookup key).toList ++ world.removed = _
    rw [known]
    rfl

theorem Kept.publish (kept : world.Kept) {l : Nat} {key : ChunkKey} {cell : Nat} {ending : Ending}
    (leads : world.callers l = .leading key cell (.unregistered ending)) :
    world.Advances ((world.setShared cell { result := some ending.answer }).goTo l
      (.leading key cell (.waking ending (world.shared cell).wakers)))
      l key cell (.unregistered ending) (.waking ending (world.shared cell).wakers) none where
  leads := leads
  leader := Function.update_self ..
  others := fun _ other => Function.update_of_ne other ..
  inFlight := by
    intro k c
    refine ⟨fun h => ⟨h, ?_⟩, And.left⟩
    rintro rfl
    exact (kept.own leads h).2
  cells := rfl
  published := by
    change (Function.update world.shared cell _ cell).result = _
    rw [Function.update_self]
    rfl
  shared := fun c apart => Function.update_of_ne apart ..
  wakes := fun _ _ h => h
  later := nofun
  registered := False.elim
  removed := .inr ⟨False.elim, rfl⟩

theorem Kept.wake (kept : world.Kept) {l waker : Nat} {left : List Nat} {key : ChunkKey}
    {cell : Nat} {ending : Ending}
    (leads : world.callers l = .leading key cell (.waking ending (waker :: left))) :
    world.Advances ((world.goTo l (.leading key cell (.waking ending left))).wakeAll waker)
      l key cell (.waking ending (waker :: left)) (.waking ending left) (some waker) where
  leads := leads
  leader := by
    change (Function.update world.callers l _ l).wake waker = _
    rw [Function.update_self]
    rfl
  others := by
    intro f other
    change (Function.update world.callers l _ f).wake waker = _
    rw [Function.update_of_ne other]
    rfl
  inFlight := by
    intro k c
    refine ⟨fun h => ⟨h, ?_⟩, And.left⟩
    rintro rfl
    exact (kept.own leads h).2
  cells := rfl
  published := kept.published l key cell (.waking ending (waker :: left)) leads
  shared := fun _ _ => rfl
  wakes := by
    intro mine apart h
    rcases List.mem_cons.mp h with rfl | h
    · exact absurd rfl apart
    · exact h
  later := fun _ h => h
  registered := False.elim
  removed := .inr ⟨False.elim, rfl⟩

theorem Kept.step {chunkSize : Nat} (kept : world.Kept) {action : Action}
    (stepped : world.step chunkSize action = some next) : next.Kept := by
  cases action with
  | call caller key chunkIndex length =>
    dsimp only [World.step] at stepped
    split at stepped
    · rename_i outside
      cases stepped
      have idle : ¬ (world.callers caller).Leads := by
        rintro ⟨_, _, _, h⟩
        rw [outside] at h
        cases h
      split
      · exact Follows.kept_next kept (follows_goTo idle (fun ⟨_, _, _, h⟩ => nomatch h) nofun nofun)
      · rename_i chunk range _
        cases found : world.inFlight.lookup chunk with
        | none => exact kept.lead outside found
        | some existing =>
          rw [joinOrLead, found]
          obtain ⟨l, stage, leads, -⟩ := (kept.registered chunk existing).mp found
          refine Follows.kept_next kept (follows_goTo idle (fun ⟨_, _, _, h⟩ => nomatch h) ?_ nofun)
          rintro _ _ _ _ ⟨⟩
          exact ⟨l, stage, leads, nofun⟩
    · cases stepped
  | fetched leader answer =>
    dsimp only [World.step] at stepped
    split at stepped
    · rename_i key cell leads
      cases stepped
      exact Advances.kept_next kept (kept.advance leads rfl (fun _ h => h) Iff.rfl)
    · cases stepped
  | dropLeader leader =>
    dsimp only [World.step] at stepped
    split at stepped
    · rename_i key cell leads
      cases stepped
      exact Advances.kept_next kept (kept.advance leads rfl (fun _ h => h) Iff.rfl)
    · cases stepped
  | remove leader =>
    dsimp only [World.step] at stepped
    split at stepped
    · rename_i key cell ending leads
      cases stepped
      exact Advances.kept_next kept (kept.remove leads)
    · cases stepped
  | publish leader =>
    dsimp only [World.step] at stepped
    split at stepped
    · rename_i key cell ending leads
      cases stepped
      exact Advances.kept_next kept (kept.publish leads)
    · cases stepped
  | wake leader =>
    dsimp only [World.step] at stepped
    split at stepped
    · rename_i key cell ending leads
      cases stepped
      exact Advances.kept_next kept (kept.advance leads rfl (fun _ h => nomatch h) Iff.rfl)
    · rename_i key cell ending waker left leads
      cases stepped
      exact Advances.kept_next kept (kept.wake leads)
    · cases stepped
  | poll follower waker =>
    dsimp only [World.step] at stepped
    split at stepped
    · rename_i key cell before woken waits
      split at stepped
      · rename_i answer set_
        cases stepped
        obtain ⟨l, stage, leads, -⟩ := kept.joined follower key cell before woken waits
        refine Follows.kept_next kept (follows_goTo ?_ (fun ⟨_, _, _, h⟩ => nomatch h) nofun ?_)
        · rintro ⟨_, _, _, h⟩
          rw [waits] at h
          cases h
        · rintro _ _ _ ⟨⟩
          exact ⟨l, stage, leads, (kept.published l key cell stage leads).symm.trans set_⟩
      · rename_i unset
        cases stepped
        exact kept.poll waits unset
    · cases stepped
  | dropFollower follower =>
    dsimp only [World.step] at stepped
    split at stepped
    · rename_i key cell before woken waits
      cases stepped
      refine Follows.kept_next kept (follows_goTo ?_ (fun ⟨_, _, _, h⟩ => nomatch h) nofun nofun)
      rintro ⟨_, _, _, h⟩
      rw [waits] at h
      cases h
    · cases stepped

end World

/-- One fetch at a time for each chunk; an answer is the one its fetch ended with; a follower is
kept waiting only by a fetch that goes on or is being published; and a leader takes its own
registration out of the registry, once. -/
structure World.SingleFlight (world : World) : Prop where
  oneFetch : ∀ i j key cell cell', world.callers i = .leading key cell .fetching →
    world.callers j = .leading key cell' .fetching → i = j
  oneLeader : ∀ i j key key' cell stage stage', world.callers i = .leading key cell stage →
    world.callers j = .leading key' cell stage' → i = j
  answers : ∀ f key cell answer, world.callers f = .answered key cell answer →
    ∃ l stage ending, world.callers l = .leading key cell stage ∧
      stage.ending = some ending ∧ answer = ending.answer
  waits : ∀ f key cell waker woken, world.callers f = .following key cell waker woken →
    ∃ l stage, world.callers l = .leading key cell stage ∧ ∀ ending, stage = .done ending →
      (waker = none ∨ woken = true) ∧ ∀ chunkSize mine, ∃ next,
        world.step chunkSize (.poll f mine) = some next ∧
          next.callers f = .answered key cell ending.answer
  registered : ∀ l key cell stage, world.callers l = .leading key cell stage → stage.Registered →
    world.inFlight.lookup key = some cell ∧ cell ∉ world.removed
  removed : ∀ l key cell stage, world.callers l = .leading key cell stage → ¬ stage.Registered →
    world.removed.count cell = 1 ∧ ∀ k, world.inFlight.lookup k ≠ some cell

namespace World

variable {world next : World} {l f : Nat} {key : ChunkKey} {cell : Nat} {stage : Stage}

theorem Kept.due (kept : world.Kept) {waker : Option Nat} {woken : Bool} {ending : Ending}
    (waits : world.callers f = .following key cell waker woken)
    (leads : world.callers l = .leading key cell (.done ending)) : waker = none ∨ woken = true := by
  obtain ⟨l', stage, leads', wakes⟩ := kept.joined f key cell waker woken waits
  obtain rfl := kept.sole l' l key key cell stage _ leads' leads
  rw [leads] at leads'
  cases leads'
  cases waker with
  | none => exact .inl rfl
  | some mine =>
    cases woken with
    | true => exact .inr rfl
    | false => exact absurd (wakes mine rfl rfl) id

theorem Kept.poll_eq (kept : world.Kept) {waker : Option Nat} {woken : Bool} {ending : Ending}
    (waits : world.callers f = .following key cell waker woken)
    (leads : world.callers l = .leading key cell (.done ending)) (chunkSize mine : Nat) :
    world.step chunkSize (.poll f mine) = some (world.goTo f (.answered key cell ending.answer)) := by
  dsimp only [World.step]
  rw [waits]
  dsimp only
  rw [kept.published l key cell _ leads]
  rfl

theorem Kept.singleFlight (kept : world.Kept) : world.SingleFlight where
  oneFetch := by
    intro i j key cell cell' h h'
    have known := (kept.registered key cell).mpr ⟨i, _, h, trivial⟩
    rw [(kept.registered key cell').mpr ⟨j, _, h', trivial⟩] at known
    cases known
    exact kept.sole i j key key cell _ _ h h'
  oneLeader := kept.sole
  answers := by
    intro f key cell answer h
    obtain ⟨l, stage, leads, published⟩ := kept.told f key cell answer h
    obtain ⟨ending, ended, same⟩ := Stage.published_eq_some published
    exact ⟨l, stage, ending, leads, ended, same⟩
  waits := by
    intro f key cell waker woken h
    obtain ⟨l, stage, leads, -⟩ := kept.joined f key cell waker woken h
    refine ⟨l, stage, leads, ?_⟩
    rintro ending rfl
    refine ⟨kept.due h leads, fun chunkSize mine => ⟨_, kept.poll_eq h leads chunkSize mine, ?_⟩⟩
    exact Function.update_self ..
  registered := by
    intro l key cell stage leads registered
    refine ⟨(kept.registered key cell).mpr ⟨l, stage, leads, registered⟩, fun member => ?_⟩
    obtain ⟨l', k, stage', leads', gone⟩ := (kept.removed cell).mp member
    obtain rfl := kept.sole l' l k key cell stage' stage leads' leads
    rw [leads] at leads'
    cases leads'
    exact gone registered
  removed := by
    intro l key cell stage leads gone
    refine ⟨List.count_eq_one_of_mem kept.once ?_, fun k known => gone (kept.own leads known).2⟩
    exact (kept.removed cell).mpr ⟨l, key, stage, leads, gone⟩

end World

end Chunk

end Oqueue
