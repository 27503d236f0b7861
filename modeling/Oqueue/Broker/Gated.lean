import Oqueue.Broker.Gate
import Oqueue.Library.Steps

/-!
# Nothing is handled for a caller who is not known

A session's principal is set once, by a request that proves it. So whatever the session was read
for, it still says the same; and the guards that are held are the requests that are counted.
-/

namespace Oqueue.Gate

open Codec
open Broker (Principal)

def Place.succeeded : Place → Bool
  | returned _ (.reply (.saslAuthenticate response)) => response.errorCode = ErrorCode.none
  | _ => false

def isSasl (apiKey : ApiKey) : Bool := apiKey = .saslHandshake || apiKey = .saslAuthenticate

def Call.Proves (config : Config) (call : Call) (principal : Principal) : Prop :=
  ∃ prelude body authBytes, (readRequestPrelude ⟨call.frame, 0⟩).1 = .ok prelude ∧
    ApiKey.fromI16 prelude.apiKey = some .saslAuthenticate ∧
    requestBody call.frame = some body ∧
    (decodeSaslAuthenticate prelude.apiVersion ⟨body, 0⟩).1 = .ok authBytes ∧
    SaslAuthenticate.matched (config.tls call.connection) config.credentials authBytes =
      some principal

structure Guarded (config : Config) (session : Option Principal) (quota : Bool) (apiKey : ApiKey)
    (guard : Option Principal) : Prop where
  own : ∀ principal, guard = some principal → session = some principal
  bounded : quota = true → config.credentials ≠ [] → isSasl apiKey = false → guard.isSome

def Call.Good (config : Config) (session : Option Principal) (quota : Bool) (call : Call) : Prop :=
  match call.place with
  | .arrived => True
  | .parsed prelude apiKey => (readRequestPrelude ⟨call.frame, 0⟩).1 = .ok prelude ∧
    ApiKey.fromI16 prelude.apiKey = some apiKey
  | .authorized prelude apiKey => (readRequestPrelude ⟨call.frame, 0⟩).1 = .ok prelude ∧
    ApiKey.fromI16 prelude.apiKey = some apiKey ∧
    (config.credentials ≠ [] → isSasl apiKey = false → session.isSome)
  | .admitted prelude apiKey guard => (readRequestPrelude ⟨call.frame, 0⟩).1 = .ok prelude ∧
    ApiKey.fromI16 prelude.apiKey = some apiKey ∧
    (config.credentials ≠ [] → isSasl apiKey = false → session.isSome) ∧
    Guarded config session quota apiKey guard
  | .handling apiKey principal guard => isSasl apiKey = false ∧
    (config.credentials ≠ [] → principal.isSome) ∧
    (∀ known, principal = some known → session = some known) ∧
    Guarded config session quota apiKey guard
  | .returned _ answer => answer = .silent ∨ answer = .reply .handled →
    config.credentials ≠ [] → session.isSome

namespace World

/-- The guards that are held for a principal. -/
def inFlight (self : World) (principal : Principal) : Nat :=
  self.calls.countP fun call => call.place.guard = some principal

def successes (self : World) (connection : Nat) : Nat :=
  self.calls.countP fun call => call.connection = connection && call.place.succeeded

structure Kept (config : Config) (limit : Principal → Nat) (world : World) : Prop where
  good : ∀ call ∈ world.calls,
    call.Good config (world.principals call.connection) world.quota.isSome
  proven : ∀ connection principal, world.principals connection = some principal →
    ∃ call ∈ world.calls, call.connection = connection ∧ call.place.succeeded = true ∧
      call.Proves config principal
  once : ∀ connection, world.successes connection = (world.principals connection).toList.length
  counted : ∀ quota, world.quota = some quota → ∀ principal,
    quota.count principal = world.inFlight principal
  below : ∀ quota, world.quota = some quota → ∀ principal, quota.maxInFlight ≤ limit principal ∧
    quota.limitFor principal ≤ limit principal ∧ quota.count principal ≤ limit principal

end World

variable {config : Config} {limit : Principal → Nat} {world next : World} {call : Call}

theorem Guarded.later {session later : Option Principal} {quota : Bool} {apiKey : ApiKey}
    {guard : Option Principal} (guarded : Guarded config session quota apiKey guard)
    (grows : ∀ principal, session = some principal → later = some principal) :
    Guarded config later quota apiKey guard :=
  ⟨fun principal held => grows principal (guarded.own principal held), guarded.bounded⟩

theorem Call.Good.later {session later : Option Principal} {quota : Bool}
    (good : call.Good config session quota)
    (grows : ∀ principal, session = some principal → later = some principal) :
    call.Good config later quota := by
  have some_ (is : session.isSome) : later.isSome := by
    obtain ⟨principal, is⟩ := Option.isSome_iff_exists.mp is
    rw [grows principal is]
    rfl
  unfold Call.Good at good ⊢
  split at good
  · trivial
  · exact good
  · exact ⟨good.1, good.2.1, fun configured plain => some_ (good.2.2 configured plain)⟩
  · obtain ⟨prelude, key, cleared, guarded⟩ := good
    exact ⟨prelude, key, fun configured plain => some_ (cleared configured plain),
      guarded.later grows⟩
  · obtain ⟨plain, known, own, guarded⟩ := good
    exact ⟨plain, known, fun principal is => grows principal (own principal is),
      guarded.later grows⟩
  · exact fun handled configured => some_ (good handled configured)

theorem countP_replaced {calls : List Call} {id : Nat} (there : calls[id]? = some call)
    (p : Call → Bool) (new : Call) : (calls.set id new).countP p + (if p call then 1 else 0) =
      calls.countP p + if p new then 1 else 0 := by
  obtain ⟨inside, is⟩ := List.getElem?_eq_some_iff.mp there
  have held := List.boole_getElem_le_countP (p := p) inside
  rw [List.countP_set inside]
  rw [is] at held ⊢
  omega

theorem Call.Proves.place {principal : Principal} (proves : call.Proves config principal)
    (place : Place) : { call with place : Call }.Proves config principal := proves

namespace World

/-- One call moves on; the session of its connection may be set, and its guard taken or dropped. -/
structure Moves (config : Config) (id : Nat) (call : Call) (place : Place) (world next : World) :
    Prop where
  calls : next.calls = world.calls.set id { call with place }
  fresh : call.place.succeeded = false
  grows : ∀ connection principal, world.principals connection = some principal →
    next.principals connection = some principal
  proves : ∀ connection principal, next.principals connection = some principal →
    world.principals connection = some principal ∨
      call.connection = connection ∧ place.succeeded = true ∧ call.Proves config principal
  once : ∀ connection, (next.principals connection).toList.length =
    (world.principals connection).toList.length +
      if call.connection = connection ∧ place.succeeded = true then 1 else 0
  bounded : next.quota.isSome = world.quota.isSome
  counts : ∀ quota quota', world.quota = some quota → next.quota = some quota' → ∀ principal,
    quota'.maxInFlight = quota.maxInFlight ∧
      quota'.limitFor principal = quota.limitFor principal ∧
      (quota.count principal = world.inFlight principal →
        quota'.count principal + (if call.place.guard = some principal then 1 else 0) =
          quota.count principal + if place.guard = some principal then 1 else 0) ∧
      (quota'.count principal ≤ quota.count principal ∨
        quota'.count principal ≤ quota.limitFor principal)

theorem Moves.bounded_before {id : Nat} {place : Place}
    (moves : Moves config id call place world next) {quota' : PrincipalQuota}
    (is' : next.quota = some quota') : ∃ quota, world.quota = some quota := by
  have some_ := moves.bounded
  rw [is'] at some_
  exact Option.isSome_iff_exists.mp some_.symm

theorem Moves.quiet {id : Nat} {place : Place} (fresh : call.place.succeeded = false)
    (still : place.succeeded = false) (guard : place.guard = call.place.guard) :
    Moves config id call place world (world.place id call place) where
  calls := rfl
  fresh := fresh
  grows _ _ is := is
  proves _ _ is := .inl is
  once connection := by
    rw [still]
    simp [World.place]
  bounded := rfl
  counts quota quota' is is' principal := by
    obtain rfl : quota = quota' := Option.some.inj (is.symm.trans is')
    rw [guard]
    exact ⟨rfl, rfl, fun _ => rfl, .inl le_rfl⟩

theorem end_bounded (world : World) {id : Nat} {apiKey : Option ApiKey} {answer : Answer} :
    (world.end_ id call apiKey answer).quota.isSome = world.quota.isSome := by
  unfold World.end_
  dsimp only
  split
  · exact Option.isSome_map
  · rfl

/-- The guard that a call drops is one of those that are counted. -/
theorem end_counts (world : World) {id : Nat} (apiKey : Option ApiKey) (answer : Answer)
    (there : world.calls[id]? = some call) {quota quota' : PrincipalQuota}
    (is : world.quota = some quota)
    (is' : (world.end_ id call apiKey answer).quota = some quota') (principal : Principal) :
    quota'.maxInFlight = quota.maxInFlight ∧
      quota'.limitFor principal = quota.limitFor principal ∧
      (quota.count principal = world.inFlight principal →
        quota'.count principal + (if call.place.guard = some principal then 1 else 0) =
          quota.count principal) ∧ quota'.count principal ≤ quota.count principal := by
  have held : call.place.guard = some principal → 0 < world.inFlight principal := by
    intro guard
    exact List.countP_pos_iff.mpr ⟨call, List.mem_of_getElem? there, decide_eq_true guard⟩
  unfold World.end_ at is'
  dsimp only at is'
  split at is'
  · rename_i other guard
    rw [is] at is'
    obtain rfl := Option.some.inj is'
    rw [guard] at held ⊢
    rw [PrincipalQuota.maxInFlight_release, PrincipalQuota.limitFor_release,
      PrincipalQuota.count_release]
    refine ⟨rfl, rfl, ?_, Nat.sub_le _ _⟩
    intro counted
    simp only [Option.some.injEq] at held ⊢
    rw [counted]
    by_cases same : other = principal
    · have := held same
      rw [if_pos same, if_pos same.symm]
      omega
    · rw [if_neg same, if_neg fun is => same is.symm]
      rfl
  · rename_i guard
    obtain rfl : quota = quota' := Option.some.inj (is.symm.trans is')
    rw [guard]
    exact ⟨rfl, rfl, fun _ => rfl, le_rfl⟩

theorem Moves.ended {id : Nat} {apiKey : Option ApiKey} {answer : Answer}
    (there : world.calls[id]? = some call) (fresh : call.place.succeeded = false)
    (still : (Place.returned apiKey answer).succeeded = false) :
    Moves config id call (.returned apiKey answer) world (world.end_ id call apiKey answer) where
  calls := rfl
  fresh := fresh
  grows _ _ is := is
  proves _ _ is := .inl is
  once connection := by
    rw [still]
    simp [World.end_, World.place]
  bounded := end_bounded world
  counts quota quota' is is' principal := by
    obtain ⟨default, limit, counts, less⟩ := end_counts world apiKey answer there is is' principal
    exact ⟨default, limit, counts, .inl less⟩

/-- A call ends that proved a principal to a session that had none. -/
theorem Moves.proved {id : Nat} {apiKey : Option ApiKey} {answer : Answer} {principal : Principal}
    (there : world.calls[id]? = some call) (fresh : call.place.succeeded = false)
    (absent : world.principals call.connection = none) (proves : call.Proves config principal)
    (succeeded : (Place.returned apiKey answer).succeeded = true) :
    Moves config id call (.returned apiKey answer) world
      ({ world with
        principals := Function.update world.principals call.connection (some principal) }.end_ id
          call apiKey answer) where
  calls := rfl
  fresh := fresh
  grows connection known is := by
    change Function.update world.principals call.connection (some principal) connection = some known
    rw [Function.update_of_ne]
    · exact is
    · rintro rfl
      rw [absent] at is
      cases is
  proves connection known is := by
    change Function.update world.principals call.connection (some principal) connection = some known
      at is
    by_cases same : connection = call.connection
    · rw [same, Function.update_self] at is
      obtain rfl := Option.some.inj is
      exact .inr ⟨same.symm, succeeded, proves⟩
    · rw [Function.update_of_ne same] at is
      exact .inl is
  once connection := by
    change (Function.update world.principals call.connection (some principal)
      connection).toList.length = _
    rw [succeeded]
    by_cases same : connection = call.connection
    · rw [same, Function.update_self, absent, if_pos ⟨rfl, rfl⟩]
      rfl
    · rw [Function.update_of_ne same, if_neg fun both => same both.1.symm]
      rfl
  bounded := end_bounded _
  counts quota quota' is is' principal := by
    obtain ⟨default, limit, counts, less⟩ := end_counts _ apiKey answer there is is' principal
    exact ⟨default, limit, counts, .inl less⟩

theorem Kept.moves (kept : world.Kept config limit) {id : Nat} {place : Place}
    (there : world.calls[id]? = some call) (moves : Moves config id call place world next)
    (good : { call with place : Call }.Good config (next.principals call.connection)
      next.quota.isSome) : next.Kept config limit := by
  have among : call ∈ world.calls := List.mem_of_getElem? there
  have inside : { call with place : Call } ∈ next.calls := by
    rw [moves.calls]
    exact List.mem_set (List.getElem?_eq_some_iff.mp there).1 _
  constructor
  case good =>
    intro other mem
    rw [moves.calls] at mem
    obtain mem | rfl := List.mem_or_eq_of_mem_set mem
    · rw [moves.bounded]
      exact (kept.good other mem).later (moves.grows other.connection)
    · exact good
  case proven =>
    intro connection principal is
    obtain before | ⟨rfl, succeeded, proves⟩ := moves.proves connection principal is
    · obtain ⟨other, mem, own, succeeded, proves⟩ := kept.proven connection principal before
      refine ⟨other, ?_, own, succeeded, proves⟩
      rw [moves.calls]
      obtain ⟨i, at_⟩ := List.mem_iff_getElem?.mp mem
      refine List.mem_iff_getElem?.mpr ⟨i, ?_⟩
      rw [List.getElem?_set_ne]
      · exact at_
      · rintro rfl
        cases at_.symm.trans there
        cases moves.fresh.symm.trans succeeded
    · exact ⟨_, inside, rfl, succeeded, proves.place place⟩
  case once =>
    intro connection
    have replaced := countP_replaced there
      (fun call => call.connection = connection && call.place.succeeded) { call with place }
    rw [← moves.calls] at replaced
    have same : next.successes connection = world.successes connection +
        if call.connection = connection ∧ place.succeeded = true then 1 else 0 := by
      simpa [successes, moves.fresh] using replaced
    rw [same, kept.once, moves.once]
  case counted =>
    intro quota' is' principal
    obtain ⟨quota, is⟩ := moves.bounded_before is'
    have replaced := countP_replaced there (fun call => call.place.guard = some principal)
      { call with place }
    rw [← moves.calls] at replaced
    have counted := kept.counted quota is principal
    obtain ⟨-, -, counts, -⟩ := moves.counts quota quota' is is' principal
    have counts := counts counted
    simp only [decide_eq_true_eq] at replaced
    unfold inFlight at counted ⊢
    omega
  case below =>
    intro quota' is' principal
    obtain ⟨quota, is⟩ := moves.bounded_before is'
    obtain ⟨least, low, high⟩ := kept.below quota is principal
    obtain ⟨default, same, -, room⟩ := moves.counts quota quota' is is' principal
    rw [default, same]
    refine ⟨least, low, ?_⟩
    obtain less | less := room
    · exact less.trans high
    · exact less.trans low

end World

theorem handle_cases (prelude : RequestPrelude) (body : List UInt8) (tls : Bool)
    (credentials : PlainCredentials) (session : Option Principal) (apiKey : Option ApiKey) :
    let outcome := SaslAuthenticate.handle prelude body tls credentials session
    (∃ authBytes principal,
      (decodeSaslAuthenticate prelude.apiVersion ⟨body, 0⟩).1 = .ok authBytes ∧
        SaslAuthenticate.matched tls credentials authBytes = some principal ∧ session = none ∧
        outcome.1 = some principal ∧ (Place.returned apiKey outcome.2).succeeded = true) ∨
    outcome.1 = session ∧ (Place.returned apiKey outcome.2).succeeded = false := by
  unfold SaslAuthenticate.handle
  split
  · exact .inr ⟨rfl, rfl⟩
  · rename_i authBytes decoded
    split
    · rename_i principal matched
      exact .inl ⟨authBytes, principal, decoded, matched, rfl, rfl, rfl⟩
    · exact .inr ⟨rfl, rfl⟩

theorem sasl_answer (prelude : RequestPrelude) (body : List UInt8) (tls : Bool)
    (credentials : PlainCredentials) (session : Option Principal) :
    ¬ ((SaslAuthenticate.handle prelude body tls credentials session).2 = .silent ∨
      (SaslAuthenticate.handle prelude body tls credentials session).2 = .reply .handled) := by
  unfold SaslAuthenticate.handle
  split
  · rintro (⟨⟨⟩⟩ | ⟨⟨⟩⟩)
  · split <;> rintro (⟨⟨⟩⟩ | ⟨⟨⟩⟩)

theorem handshake_answer (body : List UInt8) (apiKey : Option ApiKey) :
    (Place.returned apiKey (SaslHandshake.handle body)).succeeded = false ∧
      ¬ (SaslHandshake.handle body = .silent ∨ SaslHandshake.handle body = .reply .handled) := by
  unfold SaslHandshake.handle
  split
  · exact ⟨rfl, by rintro (⟨⟨⟩⟩ | ⟨⟨⟩⟩)⟩
  · exact ⟨rfl, by rintro (⟨⟨⟩⟩ | ⟨⟨⟩⟩)⟩

/-- A frame of a call that was parsed is of an API that the node serves. -/
theorem parse_good (session : Option Principal) (quota : Bool) (call : Call) :
    { call with place := parse config call.frame : Call }.Good config session quota ∧
      (parse config call.frame).succeeded = false ∧ (parse config call.frame).guard = none := by
  have closed (apiKey : Option ApiKey) :
      { call with place := .returned apiKey .close : Call }.Good config session quota := by
    rintro (⟨⟨⟩⟩ | ⟨⟨⟩⟩)
  unfold parse
  split
  · exact ⟨closed _, rfl, rfl⟩
  · rename_i prelude decoded
    split
    · exact ⟨closed _, rfl, rfl⟩
    · rename_i apiKey known
      split
      · exact ⟨closed _, rfl, rfl⟩
      · split
        · exact ⟨closed _, rfl, rfl⟩
        · split
          · refine ⟨?_, rfl, rfl⟩
            rintro (⟨⟨⟩⟩ | ⟨⟨⟩⟩)
          · exact ⟨⟨decoded, known⟩, rfl, rfl⟩

theorem unauthorized_eq_false {session : Option Principal} {apiKey : ApiKey}
    (passed : unauthorized config session apiKey = false) (configured : config.credentials ≠ [])
    (plain : isSasl apiKey = false) : session.isSome := by
  unfold unauthorized authorize at passed
  unfold isSasl at plain
  rw [plain] at passed
  cases session with
  | some principal => rfl
  | none =>
    have empty : config.credentials.isEmpty = true := by simpa using passed
    exact absurd (List.isEmpty_iff.mp empty) configured

namespace World

theorem Kept.arrive (kept : world.Kept config limit) (connection : Nat) (frame : List UInt8) :
    { world with calls := world.calls ++ [{ connection, frame }] : World }.Kept config limit := by
  constructor
  case good =>
    intro call mem
    obtain mem | mem := List.mem_append.mp mem
    · exact kept.good call mem
    · obtain rfl := List.mem_singleton.mp mem
      trivial
  case proven =>
    intro connection principal is
    obtain ⟨call, mem, own, proven⟩ := kept.proven connection principal is
    exact ⟨call, List.mem_append_left _ mem, own, proven⟩
  case once =>
    intro other
    have fails : List.countP (fun call : Call => call.connection = other && call.place.succeeded)
        [{ connection, frame }] = 0 := by
      simp [Place.succeeded]
    unfold successes
    rw [List.countP_append, fails]
    exact kept.once other
  case counted =>
    intro quota is principal
    have unguarded : List.countP (fun call : Call => call.place.guard = some principal)
        [{ connection, frame }] = 0 := rfl
    unfold inFlight
    rw [List.countP_append, unguarded]
    exact kept.counted quota is principal
  case below => exact kept.below

theorem Kept.admitQuota (kept : world.Kept config limit) {id : Nat} {prelude : RequestPrelude}
    {apiKey : ApiKey} (there : world.calls[id]? = some call)
    (stands : call.place = .authorized prelude apiKey) :
    (world.admitQuota id call prelude apiKey).Kept config limit := by
  have among : call ∈ world.calls := List.mem_of_getElem? there
  have good := kept.good call among
  unfold Call.Good at good
  rw [stands] at good
  obtain ⟨decoded, key, cleared⟩ := good
  have fresh : call.place.succeeded = false := by
    rw [stands]
    rfl
  have unguarded : call.place.guard = none := by
    rw [stands]
    rfl
  unfold World.admitQuota
  split
  · rename_i quota principal is session
    dsimp only
    have counts (place : Place)
        (held : place.guard = if (quota.tryAdmit principal).2 then some principal else none)
        (quota₁ quota₂ : PrincipalQuota) (is₁ : world.quota = some quota₁)
        (is₂ : some (quota.tryAdmit principal).1 = some quota₂) (other : Principal) :
        quota₂.maxInFlight = quota₁.maxInFlight ∧
          quota₂.limitFor other = quota₁.limitFor other ∧
          (quota₁.count other = world.inFlight other →
            quota₂.count other + (if call.place.guard = some other then 1 else 0) =
              quota₁.count other + if place.guard = some other then 1 else 0) ∧
          (quota₂.count other ≤ quota₁.count other ∨
            quota₂.count other ≤ quota₁.limitFor other) := by
      obtain rfl : quota = quota₁ := Option.some.inj (is.symm.trans is₁)
      obtain rfl := Option.some.inj is₂
      have room := quota.tryAdmit_iff principal
      rw [unguarded, held, PrincipalQuota.maxInFlight_tryAdmit, PrincipalQuota.limitFor_tryAdmit,
        PrincipalQuota.count_tryAdmit]
      refine ⟨rfl, rfl, fun _ => ?_, ?_⟩
      · rw [if_neg (c := none = some other) (by rintro ⟨⟩)]
        by_cases admitted : (quota.tryAdmit principal).2 = true
        · simp only [admitted, if_true, true_and, Option.some.injEq, eq_comm]
          rfl
        · simp [admitted]
      · by_cases both : (quota.tryAdmit principal).2 = true ∧ other = principal
        · obtain ⟨admitted, rfl⟩ := both
          rw [if_pos ⟨admitted, rfl⟩]
          exact .inr (room.mp admitted)
        · rw [if_neg both]
          exact .inl le_rfl
    split
    · rename_i admitted
      refine kept.moves there
        (show Moves config id call (.admitted prelude apiKey principal) _ _ from
          ⟨rfl, fresh, fun _ _ is => is, fun _ _ is => .inl is, ?_, ?_, ?_⟩) ?_
      · intro connection
        simp [World.place, Place.succeeded]
      · rw [is]
        rfl
      · intro quota₁ quota₂ is₁ is₂
        exact counts _ (by rw [if_pos admitted]; rfl) quota₁ quota₂ is₁ is₂
      · refine ⟨decoded, key, cleared, ?_, fun _ _ _ => rfl⟩
        rintro other ⟨⟩
        exact session
    · rename_i refused
      refine kept.moves there (show Moves config id call (.returned apiKey .close) _ _ from
        ⟨rfl, fresh, fun _ _ is => is, fun _ _ is => .inl is, ?_, ?_, ?_⟩) ?_
      · intro connection
        simp [World.place, Place.succeeded]
      · rw [is]
        rfl
      · intro quota₁ quota₂ is₁ is₂
        exact counts _ (by rw [if_neg refused]; rfl) quota₁ quota₂ is₁ is₂
      · rintro (⟨⟨⟩⟩ | ⟨⟨⟩⟩)
  · rename_i unbounded
    refine kept.moves there (.quiet fresh rfl unguarded.symm)
      ⟨decoded, key, cleared, by rintro _ ⟨⟩, ?_⟩
    intro bounded configured plain
    obtain ⟨quota, is⟩ := Option.isSome_iff_exists.mp bounded
    obtain ⟨principal, session⟩ := Option.isSome_iff_exists.mp (cleared configured plain)
    exact absurd session (unbounded quota principal is)

/-- A call comes to its handler. The session is read once more, for who the handler works for. -/
theorem Kept.handle (kept : world.Kept config limit) {id : Nat} {prelude : RequestPrelude}
    {apiKey : ApiKey} {guard : Option Principal} (there : world.calls[id]? = some call)
    (stands : call.place = .admitted prelude apiKey guard) :
    (World.handle config world id call prelude apiKey guard).Kept config limit := by
  have among : call ∈ world.calls := List.mem_of_getElem? there
  have good := kept.good call among
  unfold Call.Good at good
  rw [stands] at good
  obtain ⟨decoded, key, cleared, guarded⟩ := good
  have fresh : call.place.succeeded = false := by
    rw [stands]
    rfl
  have closes {answer : Answer} (still : (Place.returned apiKey answer).succeeded = false)
      (own : ¬ (answer = .silent ∨ answer = .reply .handled)) :
      (world.end_ id call apiKey answer).Kept config limit :=
    kept.moves there (.ended there fresh still) fun handled => absurd handled own
  have serves (plain : isSasl apiKey = false) :
      (world.place id call (.handling apiKey (world.principals call.connection) guard)).Kept config
        limit := by
    refine kept.moves there (.quiet fresh rfl (by rw [stands]; rfl)) ⟨plain, ?_, ?_, guarded⟩
    · exact fun configured => cleared configured plain
    · exact fun _ known => known
  unfold World.handle
  dsimp only
  split
  · exact closes rfl (by rintro (⟨⟨⟩⟩ | ⟨⟨⟩⟩))
  · rename_i body rest
    split
    · obtain ⟨still, own⟩ := handshake_answer body ApiKey.saslHandshake
      exact closes still own
    · have own := sasl_answer prelude body (config.tls call.connection) config.credentials
        (world.principals call.connection)
      obtain ⟨authBytes, principal, read, matched, absent, set, succeeded⟩ | ⟨same, failed⟩ :=
        handle_cases prelude body (config.tls call.connection) config.credentials
          (world.principals call.connection) ApiKey.saslAuthenticate
      · rw [set]
        refine kept.moves there (.proved there fresh absent
          ⟨prelude, body, authBytes, decoded, key, rest, read, matched⟩ succeeded) ?_
        exact fun handled => absurd handled own
      · rw [same, Function.update_eq_self]
        exact closes failed own
    · rename_i unlike unlike'
      refine serves ?_
      cases apiKey <;> first | rfl | exact absurd rfl unlike | exact absurd rfl unlike'

theorem Kept.end_ (kept : world.Kept config limit) {id : Nat} {apiKey : ApiKey} {answer : Answer}
    (there : world.calls[id]? = some call) (fresh : call.place.succeeded = false)
    (answers : answer = .close ∨ answer = .silent ∨ answer = .reply .handled)
    (own : answer = .silent ∨ answer = .reply .handled → config.credentials ≠ [] →
      (world.principals call.connection).isSome) :
    (world.end_ id call apiKey answer).Kept config limit := by
  refine kept.moves there (.ended there fresh ?_) own
  obtain rfl | rfl | rfl := answers <;> rfl

theorem Kept.setOverride (kept : world.Kept config limit) {quota : PrincipalQuota}
    (is : world.quota = some quota) (principal : Principal) (bound : Option Nat)
    (within : ∀ most, bound = some most → most ≤ limit principal) :
    { world with quota := some (quota.setOverride principal bound) : World }.Kept config limit := by
  constructor
  case good =>
    intro call mem
    have good := kept.good call mem
    rw [is] at good
    exact good
  case proven => exact kept.proven
  case once => exact kept.once
  case counted =>
    rintro _ ⟨⟩ other
    rw [PrincipalQuota.count_setOverride]
    exact kept.counted quota is other
  case below =>
    rintro _ ⟨⟩ other
    obtain ⟨least, below, count⟩ := kept.below quota is other
    rw [PrincipalQuota.maxInFlight_setOverride, PrincipalQuota.count_setOverride,
      PrincipalQuota.limitFor_setOverride]
    refine ⟨least, ?_, count⟩
    split
    · rename_i same
      rw [same] at least ⊢
      cases bound with
      | none => exact least
      | some most => exact within most rfl
    · exact below

theorem step_kept {action : Action} (kept : world.Kept config limit)
    (within : ∀ principal most, action = .setOverride principal (some most) →
      most ≤ limit principal)
    (stepped : world.step config action = some next) : next.Kept config limit := by
  cases action with
  | arrive connection frame =>
    obtain rfl := Option.some.inj stepped
    exact kept.arrive connection frame
  | parse id =>
    obtain ⟨call, there, moved⟩ := Option.bind_eq_some_iff.mp stepped
    split at moved
    · rename_i arrived
      obtain rfl := Option.some.inj moved
      obtain ⟨good, still, unguarded⟩ := @parse_good config
        (world.principals call.connection) world.quota.isSome call
      exact kept.moves there (.quiet (by rw [arrived]; rfl) still (by rw [unguarded, arrived]; rfl))
        good
    · cases moved
  | authorize id =>
    obtain ⟨call, there, moved⟩ := Option.bind_eq_some_iff.mp stepped
    split at moved
    · rename_i prelude apiKey parsed
      obtain rfl := Option.some.inj moved
      have good := kept.good call (List.mem_of_getElem? there)
      unfold Call.Good at good
      rw [parsed] at good
      split
      · refine kept.moves there (.quiet (by rw [parsed]; rfl) rfl (by rw [parsed]; rfl)) ?_
        rintro (⟨⟨⟩⟩ | ⟨⟨⟩⟩)
      · rename_i passed
        refine kept.moves there (.quiet (by rw [parsed]; rfl) rfl (by rw [parsed]; rfl))
          ⟨good.1, good.2, fun configured plain => ?_⟩
        exact unauthorized_eq_false (Bool.not_eq_true _ ▸ passed) configured plain
    · cases moved
  | admitQuota id =>
    obtain ⟨call, there, moved⟩ := Option.bind_eq_some_iff.mp stepped
    split at moved
    · rename_i prelude apiKey stands
      obtain rfl := Option.some.inj moved
      exact kept.admitQuota there stands
    · cases moved
  | handle id =>
    obtain ⟨call, there, moved⟩ := Option.bind_eq_some_iff.mp stepped
    split at moved
    · rename_i prelude apiKey guard stands
      obtain rfl := Option.some.inj moved
      exact kept.handle there stands
    · cases moved
  | finish id answer =>
    obtain ⟨call, there, moved⟩ := Option.bind_eq_some_iff.mp stepped
    split at moved
    · rename_i apiKey principal guard stands
      split at moved
      · rename_i answers
        obtain rfl := Option.some.inj moved
        have good := kept.good call (List.mem_of_getElem? there)
        unfold Call.Good at good
        rw [stands] at good
        obtain ⟨-, known, own, -⟩ := good
        refine kept.end_ there (by rw [stands]; rfl) answers fun _ configured => ?_
        obtain ⟨principal, rfl⟩ := Option.isSome_iff_exists.mp (known configured)
        rw [own principal rfl]
        rfl
      · cases moved
    · cases moved
  | drop id =>
    obtain ⟨call, there, moved⟩ := Option.bind_eq_some_iff.mp stepped
    have closed : ¬ (Answer.close = .silent ∨ Answer.close = .reply .handled) := by
      rintro (⟨⟨⟩⟩ | ⟨⟨⟩⟩)
    split at moved
    · rename_i prelude apiKey guard stands
      obtain rfl := Option.some.inj moved
      exact kept.end_ there (by rw [stands]; rfl) (.inl rfl) fun handled => absurd handled closed
    · rename_i apiKey principal guard stands
      obtain rfl := Option.some.inj moved
      exact kept.end_ there (by rw [stands]; rfl) (.inl rfl) fun handled => absurd handled closed
    · cases moved
  | setOverride principal bound =>
    obtain ⟨quota, is, rfl⟩ := Option.map_eq_some_iff.mp stepped
    exact kept.setOverride is principal bound fun most held => within principal most (by rw [held])

theorem end_principals (world : World) (id : Nat) (call : Call) (apiKey : Option ApiKey)
    (answer : Answer) : (world.end_ id call apiKey answer).principals = world.principals := rfl

/-- Who a session belongs to is never changed. -/
theorem step_principals {action : Action} {connection : Nat} {principal : Principal}
    (stepped : world.step config action = some next)
    (is : world.principals connection = some principal) :
    next.principals connection = some principal := by
  cases action with
  | arrive _ frame =>
    obtain rfl := Option.some.inj stepped
    exact is
  | parse id =>
    obtain ⟨call, there, moved⟩ := Option.bind_eq_some_iff.mp stepped
    split at moved
    · obtain rfl := Option.some.inj moved
      exact is
    · cases moved
  | authorize id =>
    obtain ⟨call, there, moved⟩ := Option.bind_eq_some_iff.mp stepped
    split at moved
    · obtain rfl := Option.some.inj moved
      exact is
    · cases moved
  | admitQuota id =>
    obtain ⟨call, there, moved⟩ := Option.bind_eq_some_iff.mp stepped
    split at moved
    · obtain rfl := Option.some.inj moved
      unfold World.admitQuota
      split
      · dsimp only
        split <;> exact is
      · exact is
    · cases moved
  | handle id =>
    obtain ⟨call, there, moved⟩ := Option.bind_eq_some_iff.mp stepped
    split at moved
    · rename_i prelude apiKey guard stands
      obtain rfl := Option.some.inj moved
      unfold World.handle
      dsimp only
      split
      · exact is
      · rename_i body rest
        split
        · exact is
        · rw [end_principals]
          dsimp only
          by_cases own : connection = call.connection
          · rw [own] at is ⊢
            rw [Function.update_self]
            obtain ⟨_, _, _, _, absent, _, _⟩ | ⟨same, -⟩ :=
              handle_cases prelude body (config.tls call.connection) config.credentials
                (world.principals call.connection) none
            · rw [absent] at is
              cases is
            · rw [same]
              exact is
          · rw [Function.update_of_ne own]
            exact is
        · exact is
    · cases moved
  | finish id answer =>
    obtain ⟨call, there, moved⟩ := Option.bind_eq_some_iff.mp stepped
    split at moved
    · split at moved
      · obtain rfl := Option.some.inj moved
        exact is
      · cases moved
    · cases moved
  | drop id =>
    obtain ⟨call, there, moved⟩ := Option.bind_eq_some_iff.mp stepped
    split at moved
    · obtain rfl := Option.some.inj moved
      exact is
    · obtain rfl := Option.some.inj moved
      exact is
    · cases moved
  | setOverride principal bound =>
    obtain ⟨quota, -, rfl⟩ := Option.map_eq_some_iff.mp stepped
    exact is

theorem Kept.start {maxInFlight : Option Nat}
    (default : ∀ most, maxInFlight = some most → ∀ principal, most ≤ limit principal) :
    Kept config limit { quota := maxInFlight.map fun most => { maxInFlight := most } } where
  good _ mem := absurd mem List.not_mem_nil
  proven _ _ is := by cases is
  once _ := rfl
  counted quota is principal := by
    obtain ⟨most, -, rfl⟩ := Option.map_eq_some_iff.mp is
    rfl
  below quota is principal := by
    obtain ⟨most, held, rfl⟩ := Option.map_eq_some_iff.mp is
    exact ⟨default most held principal, default most held principal, Nat.zero_le _⟩

end World

/-- A broker with credentials handles nothing for a caller it does not know: whoever a handler
works for proved it once, over TLS, on that connection, and is who the session belongs to from
then on; and no principal has more requests past the quota than the highest limit it was given. -/
theorem gate_holds {config : Config} {maxInFlight : Option Nat} {limit : Principal → Nat}
    {actions : List Action} {world : World}
    (default : ∀ most, maxInFlight = some most → ∀ principal, most ≤ limit principal)
    (within : ∀ principal most, Action.setOverride principal (some most) ∈ actions →
      most ≤ limit principal)
    (ran : Steps.run (World.step config)
      { quota := maxInFlight.map fun most => { maxInFlight := most } } actions = some world) :
    (config.credentials ≠ [] → ∀ call ∈ world.calls,
      (∀ apiKey principal guard, call.place = .handling apiKey principal guard →
        ∃ known, principal = some known ∧ world.principals call.connection = some known ∧
          (world.quota.isSome → guard = some known)) ∧
      ∀ apiKey answer, call.place = .returned apiKey answer →
        answer = .silent ∨ answer = .reply .handled →
        ∃ known, world.principals call.connection = some known) ∧
    (∀ connection principal, world.principals connection = some principal →
      config.tls connection = true ∧ world.successes connection = 1 ∧
      ∃ call ∈ world.calls, call.connection = connection ∧ call.place.succeeded = true ∧
        call.Proves config principal) ∧
    (∀ connection, world.principals connection = none → world.successes connection = 0) ∧
    (∀ before mid, before <+: actions → Steps.run (World.step config)
        { quota := maxInFlight.map fun most => { maxInFlight := most } } before = some mid →
      ∀ connection principal, mid.principals connection = some principal →
        world.principals connection = some principal) ∧
    ∀ quota, world.quota = some quota → ∀ principal,
      quota.count principal = world.inFlight principal ∧
        world.inFlight principal ≤ limit principal := by
  have kept : world.Kept config limit := by
    refine (Steps.run_history (fun before world => before <+: actions → world.Kept config limit)
      (fun _ => .start default) ?_ ran) List.prefix_rfl
    intro before mid action next _ held stepped within_
    refine World.step_kept (held ((List.prefix_append ..).trans within_)) ?_ stepped
    rintro principal most rfl
    exact within principal most (within_.subset (by simp))
  refine ⟨?_, ?_, ?_, ?_, ?_⟩
  · intro configured call mem
    have good := kept.good call mem
    unfold Call.Good at good
    constructor
    · intro apiKey principal guard stands
      rw [stands] at good
      obtain ⟨plain, known, own, guarded⟩ := good
      obtain ⟨who, rfl⟩ := Option.isSome_iff_exists.mp (known configured)
      refine ⟨who, rfl, own who rfl, fun bounded => ?_⟩
      obtain ⟨held, is⟩ := Option.isSome_iff_exists.mp (guarded.bounded bounded configured plain)
      have same := guarded.own held is
      rw [own who rfl] at same
      rw [is, ← same]
    · intro apiKey answer stands handled
      rw [stands] at good
      exact Option.isSome_iff_exists.mp (good handled configured)
  · intro connection principal is
    obtain ⟨call, mem, own, succeeded, proves⟩ := kept.proven connection principal is
    refine ⟨?_, ?_, call, mem, own, succeeded, proves⟩
    · obtain ⟨_, _, _, _, _, _, _, matched⟩ := proves
      unfold SaslAuthenticate.matched at matched
      split at matched
      · rename_i behind
        rw [own] at behind
        exact behind
      · cases matched
    · rw [kept.once connection, is]
      rfl
  · intro connection is
    rw [kept.once connection, is]
    rfl
  · rintro before mid ⟨rest, rfl⟩ ran_before connection principal is
    rw [Steps.run_append, ran_before] at ran
    exact Steps.run_invariant (fun world => world.principals connection = some principal)
      (fun _ _ _ is stepped => World.step_principals stepped is) is ran
  · intro quota is principal
    have counted := kept.counted quota is principal
    refine ⟨counted, ?_⟩
    rw [← counted]
    exact (kept.below quota is principal).2.2

def oneCredential : Config where
  role := .combined
  credentials := [⟨"a", "b"⟩]
  tls connection := connection = 0

/-- Two connections send the same; the principal of the first then asks for more than one request
at a time. -/
def sharedRun : List Action :=
  let authenticate : List UInt8 := [0, 36, 0, 0, 0, 0, 0, 1, 255, 255, 0, 0, 0, 4, 0, 97, 0, 98]
  let metadata : List UInt8 := [0, 3, 0, 0, 0, 0, 0, 2, 255, 255]
  [.arrive 0 authenticate, .arrive 1 authenticate, .parse 0, .parse 1, .authorize 0, .authorize 1,
    .admitQuota 0, .admitQuota 1, .handle 1, .handle 0, .arrive 0 metadata, .arrive 1 metadata,
    .arrive 0 metadata, .parse 2, .parse 3, .parse 4, .authorize 2, .authorize 3, .authorize 4,
    .admitQuota 2, .admitQuota 4, .handle 2]

theorem gate_holds_shared : ∃ world, Steps.run (World.step oneCredential)
    { quota := some { maxInFlight := 1 } } sharedRun = some world ∧
    world.calls.map Call.place =
      [.returned ApiKey.saslAuthenticate (.reply (.saslAuthenticate
        { errorCode := 0, errorMessage := none, authBytes := [], sessionLifetimeMs := 0 })),
        .returned ApiKey.saslAuthenticate (.reply (.saslAuthenticate .refused)),
        .handling .metadata (some "a") (some "a"), .returned ApiKey.metadata .close,
        .returned ApiKey.metadata .close] ∧
    world.successes 0 = 1 ∧ world.inFlight "a" ≤ 1 := by
  have ends : (Steps.run (World.step oneCredential)
      { quota := some { maxInFlight := 1 } } sharedRun).map (fun world =>
        (world.calls.map Call.place, world.principals 0, world.quota.isSome)) =
      some ([.returned ApiKey.saslAuthenticate (.reply (.saslAuthenticate
        { errorCode := 0, errorMessage := none, authBytes := [], sessionLifetimeMs := 0 })),
        .returned ApiKey.saslAuthenticate (.reply (.saslAuthenticate .refused)),
        .handling .metadata (some "a") (some "a"), .returned ApiKey.metadata .close,
        .returned ApiKey.metadata .close], some "a", true) := by
    decide +kernel
  obtain ⟨world, ran, ends⟩ := Option.map_eq_some_iff.mp ends
  obtain ⟨places, rest⟩ := Prod.mk.inj ends
  obtain ⟨session, bounded⟩ := Prod.mk.inj rest
  obtain ⟨quota, is⟩ := Option.isSome_iff_exists.mp bounded
  have default : ∀ most, some 1 = some most → ∀ _ : Principal, most ≤ 1 := by
    rintro most ⟨⟩ _
    exact le_rfl
  have within : ∀ principal most, Action.setOverride principal (some most) ∈ sharedRun →
      most ≤ 1 := by
    intro principal most mem
    simp [sharedRun] at mem
  obtain ⟨-, known, -, -, counted⟩ :=
    @gate_holds oneCredential (some 1) (fun _ => 1) sharedRun world default within ran
  exact ⟨world, ran, places, (known 0 "a" session).2.1, (counted quota is "a").2⟩

end Oqueue.Gate
