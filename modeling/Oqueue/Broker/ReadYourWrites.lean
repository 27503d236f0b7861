import Oqueue.Broker.Session

/-!
# A session reads what it wrote

The log only grows, whatever a turn of the loop does, so what was acknowledged stays in it. An
index that has come as far as a session's watermark holds every commit the session was told of.
-/

namespace Oqueue

open Checked Shared

namespace Leader

variable {leader after : Leader}

/-- The log has only grown, and who leads it and in which epoch is as before. -/
structure Onward (before after : Leader) : Prop where
  grows : Grows before.toShared after.toShared
  epoch : after.epoch = before.epoch
  replayed : before.pendingReplay = false → after.pendingReplay = false

theorem Onward.refl (leader : Leader) : Onward leader leader := ⟨Grows.refl _, rfl, id⟩

theorem Onward.trans {a b c : Leader} (first : Onward a b) (second : Onward b c) : Onward a c :=
  ⟨first.grows.trans second.grows, second.epoch.trans first.epoch,
    second.replayed ∘ first.replayed⟩

theorem Onward.tryReplay (inv : leader.Inv) {reads : List LogRead} {served : Bool}
    (h : leader.tryReplay reads = (after, served)) : Onward leader after := by
  unfold Leader.tryReplay at h
  split at h
  · cases h
    exact .refl leader
  · rename_i pending
    cases hreplay : leader.replay reads with
    | mk shared outcome =>
    obtain ⟨grows, -⟩ := replay_following inv.ascending hreplay
    rw [hreplay] at h
    cases outcome with
    | error error =>
      cases h
      exact ⟨grows, rfl, id⟩
    | ok replayed =>
      cases h
      exact ⟨grows, rfl, fun _ => rfl⟩

theorem Onward.currentForTerm (inv : leader.Inv) (replayed : leader.pendingReplay = false)
    {turn : Turn} {current : Bool} (h : leader.currentForTerm turn = (after, current)) :
    Onward leader after := by
  unfold Leader.currentForTerm at h
  split at h
  · cases h
    exact .refl leader
  · split at h
    · cases h
      exact .refl leader
    · split at h
      · cases h
        exact .refl leader
      · cases hrefold : leader.refold turn.refolds with
        | mk shared outcome =>
        obtain ⟨grows, -⟩ := (inv.following replayed).refoldPages (.inl rfl) hrefold
        rw [hrefold] at h
        cases outcome with
        | none =>
          cases h
          exact ⟨grows, rfl, id⟩
        | some line =>
          cases h
          exact ⟨grows, rfl, id⟩

theorem Onward.mayWrite (inv : leader.Inv) {turn : Turn} {answer : Except CoordinatorError Unit}
    (h : leader.mayWrite turn = (after, answer)) : Onward leader after := by
  unfold Leader.mayWrite at h
  cases hreplay : leader.tryReplay turn.replays with
  | mk mid served =>
  have first := Onward.tryReplay inv hreplay
  obtain ⟨inv', pending⟩ := inv.tryReplay hreplay
  rw [hreplay] at h
  cases served with
  | false =>
    cases h
    exact first
  | true =>
    dsimp only at h
    split at h
    · cases h
      exact first
    · cases hcurrent : mid.currentForTerm turn with
      | mk held current =>
      have second := Onward.currentForTerm inv' (pending rfl) hcurrent
      rw [hcurrent] at h
      cases current with
      | false =>
        cases h
        exact first.trans second
      | true =>
        cases h
        exact first.trans second

/-- A write moves the log on, and has put its entry there where it says so. -/
theorem write_onward (inv : leader.Inv) (replayed : leader.pendingReplay = false) (turn : Turn)
    (staged : Except Error Allocator.Staged) : Onward leader (leader.write turn staged).1 ∧
      ∀ taken, (leader.write turn staged).2 = .ok taken →
        staged = .ok taken ∧ taken.entry ∈ (leader.write turn staged).1.line := by
  unfold Leader.write
  cases staged with
  | error source => exact ⟨.refl leader, by rintro _ ⟨⟩⟩
  | ok staged =>
    dsimp only
    split
    · exact ⟨.refl leader, by rintro _ ⟨⟩⟩
    · cases hjournal : leader.journal turn staged.entry with
      | mk after answer =>
      obtain ⟨grows, same, -, pending, stored⟩ := journal_spec hjournal
      have epoch : after.epoch = leader.epoch := by
        unfold Leader.journal at hjournal
        split at hjournal <;> cases hjournal <;> rfl
      have onward : Onward leader after := ⟨grows, epoch, fun held => pending.trans held⟩
      cases answer with
      | error error => exact ⟨onward, by rintro _ ⟨⟩⟩
      | ok _ =>
        obtain ⟨before, longer, ordered, takes, taken⟩ := stored rfl
        dsimp only
        unfold stillLeadsAfterAppend
        cases after.leads turn.heldAfterAppend with
        | false => exact ⟨⟨onward.grows, onward.epoch, onward.replayed⟩, by rintro _ ⟨⟩⟩
        | true =>
          have follows : Tracks before after.cell := by
            rw [same]
            exact (inv.follows replayed).mono longer
          obtain ⟨further, -⟩ := @indexing_following { after with
              allocator := (after.allocator.apply staged).1
              lastCommitted := some staged.entry.version } before staged.entry
            (ordered inv.ascending) takes taken follows turn.rebuilds
          refine ⟨onward.trans ⟨further, rfl, id⟩, ?_⟩
          rintro _ ⟨⟩
          refine ⟨rfl, further.isPrefix.subset ?_⟩
          change staged.entry ∈ after.line
          rw [taken]
          exact List.mem_append_right _ (List.mem_singleton_self _)

theorem serve_onward (inv : leader.Inv) (replayed : leader.pendingReplay = false) (turn : Turn)
    (object : ObjectKey) (spans : List CommittedSpan) (writtenAt : Nat) :
    Onward leader (leader.serve turn object spans writtenAt).1 := by
  unfold serve
  dsimp only
  split
  · exact .refl leader
  · exact (write_onward inv replayed turn _).1

theorem turn_onward (inv : leader.Inv) (turn : Turn) : Onward leader (leader.turn turn) := by
  unfold Leader.turn
  cases turn.request with
  | dropCache => exact ⟨⟨List.prefix_refl _, id⟩, rfl, id⟩
  | retry =>
    cases hreplay : leader.tryReplay turn.replays with
    | mk after served => exact Onward.tryReplay inv hreplay
  | write request =>
    dsimp only
    cases hmay : leader.mayWrite turn with
    | mk after answer =>
    have first := Onward.mayWrite inv hmay
    obtain ⟨inv', pending⟩ := inv.mayWrite hmay
    cases answer with
    | error error => exact first
    | ok _ =>
      cases request with
      | commit object spans writtenAt =>
        exact first.trans (serve_onward inv' (pending rfl) turn object spans writtenAt)
      | trim topic partition start =>
        exact first.trans (write_onward inv' (pending rfl) turn _).1
      | retention topic retentionMs =>
        exact first.trans (write_onward inv' (pending rfl) turn _).1

/-- The log holds what was acknowledged, in the epoch it was acknowledged in. -/
structure Written.Logged (leader : Leader) (written : Written) : Prop where
  epoch : written.ack.epoch = leader.epoch
  replayed : leader.pendingReplay = false
  logged : written.journaled ≠ [] → written.entry ∈ leader.line

theorem Written.Logged.later {written : Written} (logged : written.Logged leader)
    (onward : Onward leader after) : written.Logged after :=
  ⟨logged.epoch.trans onward.epoch.symm, onward.replayed logged.replayed,
    fun some_ => onward.grows.isPrefix.subset (logged.logged some_)⟩

theorem serve_logged (inv : leader.Inv) (replayed : leader.pendingReplay = false) {turn : Turn}
    {object : ObjectKey} {spans : List CommittedSpan} {writtenAt : Nat} {ack : CommitAck}
    (h : (leader.serve turn object spans writtenAt).2 = .ok ack) :
    Written.Logged (leader.serve turn object spans writtenAt).1
      ⟨ack, object, (leader.allocator.admitSpans spans).admitted.map Prod.snd, writtenAt⟩ := by
  have onward := serve_onward inv replayed turn object spans writtenAt
  have replayed' := onward.replayed replayed
  unfold serve at *
  dsimp only at *
  split at h
  · rename_i none_
    rw [if_pos none_] at *
    cases h
    refine ⟨rfl, replayed', fun some_ => ?_⟩
    exact absurd (List.isEmpty_iff.mp none_) some_
  · rename_i some_
    rw [if_neg some_] at *
    obtain ⟨-, stored⟩ := write_onward inv replayed turn (leader.allocator.stage object
      ((leader.allocator.admitSpans spans).admitted.map Prod.snd) writtenAt)
    cases written : (leader.write turn (leader.allocator.stage object
      ((leader.allocator.admitSpans spans).admitted.map Prod.snd) writtenAt)).2 with
    | error error =>
      rw [written] at h
      cases h
    | ok staged =>
      rw [written] at h
      cases h
      obtain ⟨staging, inside⟩ := stored staged written
      obtain ⟨acc, -, -, rfl⟩ := Allocator.stage_eq_ok.mp staging
      exact ⟨rfl, replayed', fun _ => inside⟩

/-- What a turn acknowledges is in the log it leaves. -/
theorem written_logged (inv : leader.Inv) {turn : Turn} {written : Written}
    (h : leader.written turn = some written) : written.Logged (leader.turn turn) := by
  unfold Leader.written at h
  unfold Leader.turn
  split at h
  · rename_i object spans writtenAt request
    rw [request]
    dsimp only
    cases hmay : leader.mayWrite turn with
    | mk after answer =>
    obtain ⟨inv', pending⟩ := inv.mayWrite hmay
    rw [hmay] at h
    cases answer with
    | error error => cases h
    | ok _ =>
      dsimp only at h ⊢
      split at h
      · cases h
      · rename_i ack acked
        cases h
        exact serve_logged inv' (pending rfl) acked
  · cases h

end Leader

/-- Within one epoch a session keeps the newest version. -/
theorem Session.observe_spec (held : Option SessionWatermark) (watermark : SessionWatermark)
    (own : ∀ current, held = some current → current.epoch = watermark.epoch) :
    ∃ want, Session.observe held watermark = some want ∧ want.epoch = watermark.epoch ∧
      watermark.version ≤ want.version ∧
        ∀ current, held = some current → current.version ≤ want.version := by
  unfold Session.observe
  cases held with
  | none => exact ⟨watermark, rfl, rfl, le_rfl, by rintro _ ⟨⟩⟩
  | some current =>
    have same := own current rfl
    have equal : compare current.epoch watermark.epoch = .eq := Nat.compare_eq_eq.mpr same
    dsimp only [Option.any_some]
    rw [equal]
    dsimp only
    split
    · rename_i newer
      refine ⟨current, rfl, same, of_decide_eq_true newer, ?_⟩
      rintro _ ⟨⟩
      exact le_rfl
    · rename_i older
      refine ⟨watermark, rfl, rfl, le_rfl, ?_⟩
      rintro _ ⟨⟩
      exact (Nat.lt_of_not_le fun newer => older (decide_eq_true newer)).le

theorem CacheState.admits_atLeast (self : CacheState) {want : SessionWatermark} {current : Nat}
    (own : want.epoch = self.epoch) (live : self.silentForMs = 0)
    (admitted : self.admits (.atLeast want) current = .ok ()) :
    ∃ applied, self.applied = some applied ∧ want.version ≤ applied := by
  unfold CacheState.admits at admitted
  split at admitted
  · cases admitted
  · dsimp only at admitted
    rw [own, live, if_neg (lt_irrefl _), if_neg (Nat.not_lt_zero _),
      if_neg (not_not.mpr rfl)] at admitted
    split at admitted
    · rename_i reached
      obtain ⟨applied, is, far⟩ := (Option.any_eq_true _ _).mp reached
      exact ⟨applied, is, of_decide_eq_true far⟩
    · cases admitted

namespace ReadYourWrites

open Leader (Onward)

variable {world next : World}

/-- The log it follows is known, and what a session was promised is in it. -/
structure Ready (leader : Leader) (promised : List Leader.Written) (cell : Cell) : Prop where
  tracks : promised ≠ [] → Tracks leader.line cell
  reached : ∀ written ∈ promised, ∃ applied, cell.appliedUpto = some applied ∧
    written.ack.version ≤ applied

def Fetch.Good (leader : Leader) (fetch : Fetch) : Prop :=
  (∀ written ∈ fetch.promised, written.Logged leader) ∧ match fetch.place with
    | .waiting want _ => want.epoch = leader.epoch ∧
      ∀ written ∈ fetch.promised, written.ack.version ≤ want.version
    | .admitted cell => Ready leader fetch.promised cell
    | .refused _ => True

structure World.Kept (world : World) : Prop where
  inv : world.leader.Inv
  answers : ∀ written ∈ world.answers, written.Logged world.leader
  observed : ∀ session, ∀ written ∈ world.observed session, written.Logged world.leader ∧
    ∃ want, world.sessions session = some want ∧ written.ack.version ≤ want.version
  own : ∀ session want, world.sessions session = some want → want.epoch = world.leader.epoch
  fetches : ∀ fetch ∈ world.fetches, fetch.Good world.leader

theorem Fetch.Good.later {leader after : Leader} {fetch : Fetch} (good : fetch.Good leader)
    (onward : Onward leader after) : fetch.Good after := by
  obtain ⟨logged, stands⟩ := good
  refine ⟨fun written mem => (logged written mem).later onward, ?_⟩
  split at stands
  · exact ⟨stands.1.trans onward.epoch.symm, stands.2⟩
  · exact ⟨fun some_ => (stands.tracks some_).mono onward.grows.isPrefix, stands.reached⟩
  · trivial

namespace World

theorem Kept.turn (kept : world.Kept) (turn : Turn) : (world.turn turn).Kept := by
  have onward := Leader.turn_onward kept.inv turn
  constructor
  case inv => exact kept.inv.turn turn
  case answers =>
    intro written mem
    obtain mem | mem := List.mem_append.mp mem
    · exact (kept.answers written mem).later onward
    · exact Leader.written_logged kept.inv (Option.mem_toList.mp mem)
  case observed =>
    intro session written mem
    obtain ⟨logged, told⟩ := kept.observed session written mem
    exact ⟨logged.later onward, told⟩
  case own => exact fun session want is => (kept.own session want is).trans onward.epoch.symm
  case fetches => exact fun fetch mem => (kept.fetches fetch mem).later onward

theorem Kept.observe (kept : world.Kept) (session : Nat) {written : Leader.Written}
    (mem : written ∈ world.answers) : (world.observe session written).Kept := by
  have logged := kept.answers written mem
  unfold World.observe
  split
  · obtain ⟨want, is, epoch, far, before⟩ := Session.observe_spec (world.sessions session)
      written.ack.watermark
      fun current is => (kept.own session current is).trans logged.epoch.symm
    constructor
    case inv => exact kept.inv
    case answers => exact kept.answers
    case observed =>
      intro other written' mem'
      dsimp only at mem' ⊢
      by_cases same : other = session
      · rw [same, Function.update_self] at mem' ⊢
        rw [is]
        obtain mem' | mem' := List.mem_append.mp mem'
        · obtain ⟨logged', current, held, within⟩ := kept.observed session written' mem'
          exact ⟨logged', want, rfl, within.trans (before current held)⟩
        · obtain rfl := List.mem_singleton.mp mem'
          exact ⟨logged, want, rfl, far⟩
      · rw [Function.update_of_ne same] at mem' ⊢
        exact kept.observed other written' mem'
    case own =>
      intro other current held
      dsimp only at held
      by_cases same : other = session
      · rw [same, Function.update_self, is] at held
        obtain rfl := Option.some.inj held
        exact epoch.trans logged.epoch
      · rw [Function.update_of_ne same] at held
        exact kept.own other current held
    case fetches => exact kept.fetches
  · exact kept

theorem Kept.checked (kept : world.Kept) {want : SessionWatermark}
    {promised : List Leader.Written}
    (own : want.epoch = world.leader.epoch)
    (logged : ∀ written ∈ promised, written.Logged world.leader)
    (within : ∀ written ∈ promised, written.ack.version ≤ want.version)
    (passed : world.check want = .ok ()) : Ready world.leader promised world.leader.cell := by
  obtain ⟨applied, is, far⟩ := CacheState.admits_atLeast world.leader.cacheState own rfl passed
  refine ⟨fun some_ => ?_, fun written mem => ⟨applied, is, (within written mem).trans far⟩⟩
  obtain ⟨written, mem⟩ := List.exists_mem_of_ne_nil _ some_
  exact kept.inv.follows (logged written mem).replayed

theorem Kept.begun (kept : world.Kept) (session : Nat) :
    Fetch.Good world.leader ⟨session, world.observed session, world.begin_ session⟩ := by
  refine ⟨fun written mem => (kept.observed session written mem).1, ?_⟩
  have logged written mem := (kept.observed session written mem).1
  unfold World.begin_
  dsimp only
  cases held : world.sessions session with
  | none =>
    have nothing : world.observed session = [] := by
      refine List.eq_nil_iff_forall_not_mem.mpr fun written mem => ?_
      obtain ⟨-, want, is, -⟩ := kept.observed session written mem
      rw [held] at is
      cases is
    rw [nothing]
    exact ⟨fun some_ => absurd rfl some_, fun _ mem => absurd mem List.not_mem_nil⟩
  | some want =>
    have own := kept.own session want held
    have within : ∀ written ∈ world.observed session, written.ack.version ≤ want.version := by
      intro written mem
      obtain ⟨-, want', is, far⟩ := kept.observed session written mem
      obtain rfl := Option.some.inj (held.symm.trans is)
      exact far
    cases passed : world.check want with
    | ok _ =>
      dsimp only
      rw [passed]
      exact kept.checked own logged within passed
    | error refusal =>
      dsimp only
      rw [passed]
      exact ⟨own, within⟩

theorem Kept.place (kept : world.Kept) {id : Nat} {fetch : Fetch} {place : Place}
    (good : Fetch.Good world.leader { fetch with place }) : (world.place id fetch place).Kept where
  inv := kept.inv
  answers := kept.answers
  observed := kept.observed
  own := kept.own
  fetches := by
    intro other mem
    obtain mem | rfl := List.mem_or_eq_of_mem_set mem
    · exact kept.fetches other mem
    · exact good

theorem Kept.step (kept : world.Kept) {action : Action} (stepped : world.step action = some next) :
    next.Kept := by
  cases action with
  | turn turn =>
    obtain rfl := Option.some.inj stepped
    exact kept.turn turn
  | observe session answer =>
    obtain ⟨written, there, rfl⟩ := Option.map_eq_some_iff.mp stepped
    exact kept.observe session (List.mem_of_getElem? there)
  | fetch session =>
    obtain rfl := Option.some.inj stepped
    refine ⟨kept.inv, kept.answers, kept.observed, kept.own, ?_⟩
    intro fetch mem
    obtain mem | mem := List.mem_append.mp mem
    · exact kept.fetches fetch mem
    · obtain rfl := List.mem_singleton.mp mem
      exact kept.begun session
  | arrive id =>
    obtain ⟨fetch, there, moved⟩ := Option.bind_eq_some_iff.mp stepped
    split at moved
    · rename_i want refusal waiting
      split at moved
      · obtain rfl := Option.some.inj moved
        obtain ⟨logged, stands⟩ := kept.fetches fetch (List.mem_of_getElem? there)
        rw [waiting] at stands
        refine kept.place ⟨logged, ?_⟩
        unfold World.recheck
        dsimp only
        cases passed : world.check want with
        | ok _ => exact kept.checked stands.1 logged stands.2 passed
        | error reason => trivial
      · cases moved
    · cases moved
  | expire id =>
    obtain ⟨fetch, there, moved⟩ := Option.bind_eq_some_iff.mp stepped
    split at moved
    · obtain rfl := Option.some.inj moved
      exact kept.place ⟨(kept.fetches fetch (List.mem_of_getElem? there)).1, trivial⟩
    · cases moved

end World

end ReadYourWrites

end Oqueue
