import Oqueue.Library.Steps

/-!
# Calls that interleave

A call runs from one request of a shared state to the next. Any number of calls are under
way, and between two requests of one the others move the state, as far as a relation
lets them. A call that keeps to the relation itself, from wherever the others leave the
state, ends as it says in every interleaving.
-/

universe u v w

/-- A call: it has returned, or it waits for the answer to a request. -/
inductive Asks (Q : Type u) (A : Q → Type u) (α : Type u) : Type u where
  | done (a : α)
  | ask (request : Q) (next : A request → Asks Q A α)

namespace Asks

variable {Q : Type u} {A : Q → Type u} {α β ε : Type u}

def bind : Asks Q A α → (α → Asks Q A β) → Asks Q A β
  | .done a, f => f a
  | .ask request next, f => .ask request fun answer => (next answer).bind f

instance : Monad (Asks Q A) where
  pure := .done
  bind := Asks.bind

def request (q : Q) : Asks Q A (A q) := .ask q .done

section
variable {σ : Type v} (serve : σ → (request : Q) → σ × A request)

/-- What a call does that no other interleaves with, and what it returns. -/
def alone : Asks Q A α → σ → σ × α
  | .done a, s => (s, a)
  | .ask request next, s => (next (serve s request).2).alone (serve s request).1

theorem alone_bind (call : Asks Q A α) (next : α → Asks Q A β) (s : σ) :
    (call >>= next).alone serve s =
      (next (call.alone serve s).2).alone serve (call.alone serve s).1 := by
  change (call.bind next).alone serve s = _
  induction call generalizing s with
  | done a => rfl
  | ask request rest ih => exact ih _ _

/-- The call alone returns this and leaves the state as it was. -/
def Peeks (s : σ) (call : ExceptT ε (Asks Q A) α) (result : Except ε α) : Prop :=
  call.run.alone serve s = (s, result)

namespace Peeks

variable {serve} {s : σ}

theorem pure (a : α) : Peeks serve s (Pure.pure a : ExceptT ε (Asks Q A) α) (.ok a) := rfl

theorem throw (e : ε) : Peeks serve s (throw e : ExceptT ε (Asks Q A) α) (.error e) := rfl

theorem bind {call : ExceptT ε (Asks Q A) α} {next : α → ExceptT ε (Asks Q A) β}
    {result : Except ε α} {goes : α → Except ε β} (first : Peeks serve s call result)
    (second : ∀ a, result = .ok a → Peeks serve s (next a) (goes a)) :
    Peeks serve s (call >>= next) (result >>= goes) := by
  refine (alone_bind serve call.run _ s).trans ?_
  rw [first]
  cases result with
  | error e => rfl
  | ok a => exact second a rfl

theorem next {call : ExceptT ε (Asks Q A) α} {next : α → ExceptT ε (Asks Q A) β} {a : α}
    {result : Except ε β} (first : Peeks serve s call (.ok a))
    (second : Peeks serve s (next a) result) : Peeks serve s (call >>= next) result := by
  refine (alone_bind serve call.run _ s).trans ?_
  rw [first]
  exact second

theorem stop {call : ExceptT ε (Asks Q A) α} {next : α → ExceptT ε (Asks Q A) β} {e : ε}
    (first : Peeks serve s call (.error e)) : Peeks serve s (call >>= next) (.error e) := by
  refine (alone_bind serve call.run _ s).trans ?_
  rw [first]
  rfl

theorem ofExcept (result : Except ε α) :
    Peeks serve s (MonadExcept.ofExcept result : ExceptT ε (Asks Q A) α) result := by
  cases result <;> rfl

theorem ite {p : Prop} [Decidable p] {x y : ExceptT ε (Asks Q A) α} {a b : Except ε α}
    (yes : p → Peeks serve s x a) (no : ¬ p → Peeks serve s y b) :
    Peeks serve s (if p then x else y) (if p then a else b) := by
  split
  · exact yes ‹_›
  · exact no ‹_›

end Peeks

end

end Asks

/-- What calls share: how it takes a caller's request under one of the choices there are, the
choices that are considered, what holds of it, and how it may change. -/
structure Resource (ι : Type w) (σ : Type v) (κ : Type w) (Q : Type u) (A : Q → Type u) where
  serve : ι → σ → (request : Q) → κ → σ × A request
  allows : ι → σ → Q → κ → Prop
  inv : σ → Prop
  later : σ → σ → Prop
  refl : ∀ s, later s s
  trans : ∀ {s t u}, later s t → later t u → later s u

namespace Asks

variable {ι : Type w} {σ : Type v} {κ : Type w} {Q : Type u} {A : Q → Type u} {α β ε : Type u}

/-- From a state on, whatever others do, the call only moves the state as it may be moved, and
if it returns after choices that are considered, then with what `post` says, for good. -/
def Meets (shared : Resource ι σ κ Q A) (who : ι) (post : σ → α → Prop) : Asks Q A α → σ → Prop
  | .done a, s => ∀ t, shared.later s t → shared.inv t → post t a
  | .ask request next, s => ∀ t, shared.later s t → shared.inv t →
    ∀ choice, shared.inv (shared.serve who t request choice).1 ∧
      shared.later t (shared.serve who t request choice).1 ∧
      (shared.allows who t request choice →
        (next (shared.serve who t request choice).2).Meets shared who post
          (shared.serve who t request choice).1)

namespace Meets

variable {shared : Resource ι σ κ Q A} {who : ι} {s t : σ}

theorem after {post : σ → α → Prop} {call : Asks Q A α} (meets : call.Meets shared who post s)
    (later : shared.later s t) : call.Meets shared who post t := by
  cases call with
  | done a => exact fun u further => meets u (shared.trans later further)
  | ask request next => exact fun u further => meets u (shared.trans later further)

theorem done {post : σ → α → Prop} {a : α}
    (holds : ∀ t, shared.later s t → shared.inv t → post t a) :
    (Asks.done a : Asks Q A α).Meets shared who post s := holds

theorem mono {post other : σ → α → Prop} {call : Asks Q A α}
    (meets : call.Meets shared who post s)
    (implies : ∀ t a, shared.later s t → shared.inv t → post t a → other t a) :
    call.Meets shared who other s := by
  induction call generalizing s with
  | done a => exact fun t later holds => implies t a later holds (meets t later holds)
  | ask request next ih =>
    intro t later holds choice
    obtain ⟨kept, moved, rest⟩ := meets t later holds choice
    refine ⟨kept, moved, fun allowed => ih _ (rest allowed) fun u a further => ?_⟩
    exact implies u a (shared.trans later (shared.trans moved further))

theorem bind {post : σ → α → Prop} {other : σ → β → Prop} {call : Asks Q A α}
    {next : α → Asks Q A β} (holds : shared.inv s) (meets : call.Meets shared who post s)
    (goes : ∀ t a, shared.later s t → shared.inv t →
      (∀ u, shared.later t u → shared.inv u → post u a) → (next a).Meets shared who other t) :
    (call >>= next).Meets shared who other s := by
  change (call.bind next).Meets shared who other s
  induction call generalizing s with
  | done a => exact goes s a (shared.refl s) holds meets
  | ask request rest ih =>
    intro t later held choice
    obtain ⟨kept, moved, meets⟩ := meets t later held choice
    refine ⟨kept, moved, fun allowed => ih _ kept (meets allowed) fun u a further => ?_⟩
    exact goes u a (shared.trans later (shared.trans moved further))

theorem request {q : Q} {post : σ → A q → Prop}
    (served : ∀ t, shared.later s t → shared.inv t → ∀ choice,
      shared.inv (shared.serve who t q choice).1 ∧ shared.later t (shared.serve who t q choice).1 ∧
      (shared.allows who t q choice → ∀ u, shared.later (shared.serve who t q choice).1 u →
        shared.inv u → post u (shared.serve who t q choice).2)) :
    (Asks.request q : Asks Q A (A q)).Meets shared who post s := served

end Meets

variable {shared : Resource ι σ κ Q A} {who : ι} {s : σ}

/-- What is said of a result. -/
def Tells (ok : α → Prop) (error : ε → Prop) : Except ε α → Prop
  | .ok a => ok a
  | .error e => error e

/-- `Meets`, of a call that returns what `ok` says or fails with what `error` says. -/
abbrev Ends (shared : Resource ι σ κ Q A) (who : ι) (ok : σ → α → Prop) (error : σ → ε → Prop)
    (call : ExceptT ε (Asks Q A) α) (s : σ) : Prop :=
  call.run.Meets shared who (fun t => Tells (ok t) (error t)) s

namespace Ends

variable {ok : σ → α → Prop} {error : σ → ε → Prop}

theorem pure {a : α} (holds : ∀ t, shared.later s t → shared.inv t → ok t a) :
    Ends shared who ok error (Pure.pure a) s := holds

theorem throw {e : ε} (holds : ∀ t, shared.later s t → shared.inv t → error t e) :
    Ends shared who ok error (throw e : ExceptT ε (Asks Q A) α) s := holds

theorem bind {mid : σ → α → Prop} {ok : σ → β → Prop} {call : ExceptT ε (Asks Q A) α}
    {next : α → ExceptT ε (Asks Q A) β} (holds : shared.inv s)
    (ends : Ends shared who mid error call s)
    (goes : ∀ t a, shared.later s t → shared.inv t → mid t a →
      Ends shared who ok error (next a) t) :
    Ends shared who ok error (call >>= next) s := by
  refine Meets.bind holds ends ?_
  rintro t (e | a) later held this
  · exact Meets.done this
  · exact goes t a later held (this t (shared.refl t) held)

theorem map {ok' : σ → β → Prop} {call : ExceptT ε (Asks Q A) α} {f : α → β}
    (holds : shared.inv s) (ends : Ends shared who ok error call s)
    (tells : ∀ t a, ok t a → ok' t (f a)) : Ends shared who ok' error (f <$> call) s := by
  refine Meets.bind holds ends ?_
  rintro t (e | a) _ _ this
  · exact Meets.done this
  · exact Meets.done fun u later held => tells u a (this u later held)

theorem ofExcept {result : Except ε α}
    (oks : ∀ t a, result = .ok a → shared.later s t → shared.inv t → ok t a)
    (errors : ∀ t e, result = .error e → shared.later s t → shared.inv t → error t e) :
    Ends shared who ok error (MonadExcept.ofExcept result) s := by
  cases result with
  | ok a => exact fun t => oks t a rfl
  | error e => exact fun t => errors t e rfl

theorem after {call : ExceptT ε (Asks Q A) α} {t : σ} (ends : Ends shared who ok error call s)
    (later : shared.later s t) : Ends shared who ok error call t := Meets.after ends later

theorem tryCatch {mid : σ → ε → Prop} {call : ExceptT ε (Asks Q A) α}
    {handle : ε → ExceptT ε (Asks Q A) α} (holds : shared.inv s)
    (ends : Ends shared who ok mid call s)
    (goes : ∀ t e, shared.later s t → shared.inv t → mid t e →
      Ends shared who ok error (handle e) t) :
    Ends shared who ok error (tryCatch call handle) s := by
  refine Meets.bind holds ends ?_
  rintro t (e | a) later held this
  · exact goes t e later held (this t (shared.refl t) held)
  · exact Meets.done this

theorem mono {ok' : σ → α → Prop} {error' : σ → ε → Prop} {call : ExceptT ε (Asks Q A) α}
    (ends : Ends shared who ok error call s)
    (oks : ∀ t a, shared.later s t → shared.inv t → ok t a → ok' t a)
    (errors : ∀ t e, shared.later s t → shared.inv t → error t e → error' t e) :
    Ends shared who ok' error' call s := by
  refine Meets.mono ends ?_
  rintro t (e | a) later held this
  · exact errors t e later held this
  · exact oks t a later held this

end Ends

/-- Whatever it is answered, the call only asks for what `P` says. -/
def Only (P : Q → Prop) : Asks Q A α → Prop
  | .done _ => True
  | .ask request next => P request ∧ ∀ answer, (next answer).Only P

namespace Only

variable {P : Q → Prop}

theorem bind {call : Asks Q A α} {next : α → Asks Q A β} (only : call.Only P)
    (rest : ∀ a, (next a).Only P) : (call >>= next).Only P := by
  change (call.bind next).Only P
  induction call with
  | done a => exact rest a
  | ask request next ih => exact ⟨only.1, fun answer => ih answer (only.2 answer)⟩

theorem request {q : Q} (asked : P q) : (Asks.request q : Asks Q A (A q)).Only P :=
  ⟨asked, fun _ => trivial⟩

theorem bindExcept {call : ExceptT ε (Asks Q A) α} {next : α → ExceptT ε (Asks Q A) β}
    (only : call.run.Only P) (rest : ∀ a, (next a).run.Only P) :
    (call >>= next).run.Only P := by
  refine bind only ?_
  rintro (e | a)
  · trivial
  · exact rest a

theorem mapExcept {call : ExceptT ε (Asks Q A) α} {f : α → β} (only : call.run.Only P) :
    (f <$> call).run.Only P := by
  refine bind only ?_
  rintro (e | a) <;> trivial

theorem ofExcept {result : Except ε α} :
    (MonadExcept.ofExcept result : ExceptT ε (Asks Q A) α).run.Only P := by
  cases result <;> trivial

end Only

end Asks

/-- A call that was begun, and what is left of it; nothing is left of one that died. -/
structure Begun (Op : Type u) (Q : Type u) (A : Q → Type u) (α : Type u) where
  op : Op
  rest : Option (Asks Q A α)

/-- A shared state, and every call that was ever begun. -/
structure Pool (σ : Type v) (Op : Type u) (Q : Type u) (A : Q → Type u) (α : Type u) where
  state : σ
  calls : List (Begun Op Q A α) := []

namespace Pool

variable {σ : Type v} {κ : Type} {Op Q : Type u} {A : Q → Type u} {α : Type u}

/-- What can happen: a call begins, the request of one is served, or one dies. -/
inductive Action (Op : Type u) (κ : Type) where
  | begin_ (op : Op)
  | serve (call : Nat) (choice : κ)
  | crash (call : Nat)

section
variable (program : Op → Asks Q A α) (serve : Nat → σ → (request : Q) → κ → σ × A request)

def step (pool : Pool σ Op Q A α) : Action Op κ → Option (Pool σ Op Q A α)
  | .begin_ op => some { pool with calls := pool.calls ++ [⟨op, some (program op)⟩] }
  | .serve i choice =>
    match pool.calls[i]? with
    | some ⟨op, some (.ask request next)⟩ =>
      let served := serve i pool.state request choice
      some ⟨served.1, pool.calls.set i ⟨op, some (next served.2)⟩⟩
    | _ => none
  | .crash i =>
    match pool.calls[i]? with
    | some ⟨op, some _⟩ => some { pool with calls := pool.calls.set i ⟨op, none⟩ }
    | _ => none

end

def outcomes (pool : Pool σ Op Q A α) : List (Op × Option α) :=
  pool.calls.map fun call => (call.op, match call.rest with
    | some (.done a) => some a
    | _ => none)

def Returned (pool : Pool σ Op Q A α) (i : Nat) (op : Op) (a : α) : Prop :=
  pool.calls[i]? = some ⟨op, some (.done a)⟩

theorem returned_of_outcomes {pool : Pool σ Op Q A α} {i : Nat} {op : Op} {a : α}
    (outcome : pool.outcomes[i]? = some (op, some a)) : pool.Returned i op a := by
  rw [outcomes, List.getElem?_map, Option.map_eq_some_iff] at outcome
  obtain ⟨⟨began, rest⟩, held, same⟩ := outcome
  obtain ⟨rfl, returned⟩ := Prod.mk.inj same
  dsimp only at returned
  split at returned
  · cases returned
    exact held
  · cases returned

section
variable (shared : Resource Nat σ κ Q A)

def Allowed (pool : Pool σ Op Q A α) : Action Op κ → Prop
  | .serve i choice => ∀ op request next, pool.calls[i]? = some ⟨op, some (.ask request next)⟩ →
    shared.allows i pool.state request choice
  | _ => True

/-- What is left of a call meets its specification, which may speak of the state the call
began in. -/
def Keeps (spec : Op → Nat → σ → σ → α → Prop) (low : Nat → σ) (i : Nat) (call : Begun Op Q A α)
    (t : σ) : Prop :=
  ∃ s, shared.later (low i) s ∧ ∀ rest, call.rest = some rest →
    rest.Meets shared i (spec call.op i s) t

variable {shared} {program : Op → Asks Q A α} {spec : Op → Nat → σ → σ → α → Prop}

/-- One step keeps what every call under way meets. -/
theorem step_keeps (meets : ∀ op i s, shared.inv s → (program op).Meets shared i (spec op i s) s)
    {low : Nat → σ} {pool next : Pool σ Op Q A α} {action : Action Op κ}
    (holds : shared.inv pool.state) (below : ∀ i, shared.later (low i) pool.state)
    (keeps : ∀ i call, pool.calls[i]? = some call → Keeps shared spec low i call pool.state)
    (allowed : Allowed shared pool action)
    (stepped : pool.step program shared.serve action = some next) :
    shared.inv next.state ∧ shared.later pool.state next.state ∧
      ∀ i call, next.calls[i]? = some call → Keeps shared spec low i call next.state := by
  cases action with
  | begin_ op =>
    cases stepped
    refine ⟨holds, shared.refl _, fun i call held => ?_⟩
    dsimp only at held ⊢
    rcases Nat.lt_or_ge i pool.calls.length with old | new
    · rw [List.getElem?_append_left old] at held
      exact keeps i call held
    · rw [List.getElem?_append_right new, List.getElem?_singleton] at held
      split at held
      · cases held
        refine ⟨pool.state, below i, ?_⟩
        rintro rest ⟨⟩
        exact meets op i pool.state holds
      · cases held
  | serve i choice =>
    dsimp only [step] at stepped
    split at stepped
    case h_2 => cases stepped
    case h_1 op request rest held =>
      cases stepped
      obtain ⟨s, began, met⟩ := keeps i _ held
      obtain ⟨kept, moved, goes⟩ := met _ rfl pool.state (shared.refl _) holds choice
      refine ⟨kept, moved, fun j call there => ?_⟩
      dsimp only at there ⊢
      rw [List.getElem?_set] at there
      split at there
      · split at there
        · cases there
          rename_i same _
          subst same
          refine ⟨s, began, ?_⟩
          rintro rest ⟨⟩
          exact goes (allowed op request _ held)
        · cases there
      · obtain ⟨s, began, met⟩ := keeps j call there
        exact ⟨s, began, fun rest left => (met rest left).after moved⟩
  | crash i =>
    dsimp only [step] at stepped
    split at stepped
    case h_2 => cases stepped
    case h_1 op rest held =>
      cases stepped
      refine ⟨holds, shared.refl _, fun j call there => ?_⟩
      dsimp only at there ⊢
      rw [List.getElem?_set] at there
      split at there
      · split at there
        · cases there
          exact ⟨low j, shared.refl _, nofun⟩
        · cases there
      · exact keeps j call there

variable (shared program) in
/-- Only allowed choices are made in a run. -/
def AllAllowed : Pool σ Op Q A α → List (Action Op κ) → Prop
  | _, [] => True
  | pool, action :: rest => Allowed shared pool action ∧
    ∀ next, pool.step program shared.serve action = some next → AllAllowed next rest

theorem allAllowed_of_forall {pool : Pool σ Op Q A α} {actions : List (Action Op κ)}
    (all : ∀ action ∈ actions, ∀ pool : Pool σ Op Q A α, Allowed shared pool action) :
    AllAllowed shared program pool actions := by
  induction actions generalizing pool with
  | nil => trivial
  | cons action rest ih =>
    refine ⟨all action List.mem_cons_self pool, fun next _ => ih fun other among => ?_⟩
    exact all other (List.mem_cons_of_mem _ among)

section
variable [∀ i s request choice, Decidable (shared.allows i s request choice)]

instance Allowed.decidable (pool : Pool σ Op Q A α) :
    (action : Action Op κ) → Decidable (Allowed shared pool action)
  | .begin_ _ | .crash _ => isTrue trivial
  | .serve i choice =>
    match held : pool.calls[i]? with
    | some ⟨op, some (.ask request next)⟩ =>
      decidable_of_iff (shared.allows i pool.state request choice)
        ⟨fun allowed _ _ _ there => by cases held.symm.trans there; exact allowed,
          fun allowed => allowed op request next held⟩
    | some ⟨_, some (.done _)⟩ | some ⟨_, none⟩ | none =>
      isTrue fun _ _ _ there => by cases held.symm.trans there

instance AllAllowed.decidable : (pool : Pool σ Op Q A α) → (actions : List (Action Op κ)) →
    Decidable (AllAllowed shared program pool actions)
  | _, [] => isTrue trivial
  | pool, action :: rest =>
    match stepped : pool.step program shared.serve action with
    | none => decidable_of_iff (Allowed shared pool action)
        ⟨fun allowed => ⟨allowed, fun _ there => by cases stepped.symm.trans there⟩, And.left⟩
    | some next =>
      haveI := AllAllowed.decidable next rest
      decidable_of_iff (Allowed shared pool action ∧ AllAllowed shared program next rest)
        ⟨fun ⟨allowed, further⟩ => ⟨allowed, fun _ there => by
          cases stepped.symm.trans there; exact further⟩,
          fun ⟨allowed, further⟩ => ⟨allowed, further next stepped⟩⟩

end

variable (spec) in
theorem run_keeps (meets : ∀ op i s, shared.inv s → (program op).Meets shared i (spec op i s) s)
    {low : Nat → σ} {pool last : Pool σ Op Q A α} {actions : List (Action Op κ)}
    (holds : shared.inv pool.state) (below : ∀ i, shared.later (low i) pool.state)
    (keeps : ∀ i call, pool.calls[i]? = some call → Keeps shared spec low i call pool.state)
    (allowed : AllAllowed shared program pool actions)
    (ran : Steps.run (step program shared.serve) pool actions = some last) :
    shared.inv last.state ∧ shared.later pool.state last.state ∧
      ∀ i call, last.calls[i]? = some call → Keeps shared spec low i call last.state := by
  induction actions generalizing pool with
  | nil =>
    cases ran
    exact ⟨holds, shared.refl _, keeps⟩
  | cons action rest ih =>
    obtain ⟨mid, stepped, ran⟩ := Steps.run_cons.mp ran
    obtain ⟨held, moved, kept⟩ := step_keeps meets holds below keeps allowed.1 stepped
    obtain ⟨holds, further, keeps⟩ :=
      ih held (fun i => shared.trans (below i) moved) kept (allowed.2 mid stepped) ran
    exact ⟨holds, shared.trans moved further, keeps⟩

theorem Keeps.returned {low : Nat → σ} {pool : Pool σ Op Q A α} {i : Nat} {op : Op} {a : α}
    (holds : shared.inv pool.state) (returned : pool.Returned i op a)
    (keeps : ∀ i call, pool.calls[i]? = some call → Keeps shared spec low i call pool.state) :
    ∃ s, shared.later (low i) s ∧ spec op i s pool.state a := by
  obtain ⟨s, began, met⟩ := keeps i _ returned
  exact ⟨s, began, met _ rfl pool.state (shared.refl _) holds⟩

variable (spec) in
/-- What has returned by a moment of a run and by its end; a call that begins after the moment
begins in a later state. -/
theorem runs_keep (meets : ∀ op i s, shared.inv s → (program op).Meets shared i (spec op i s) s)
    {first mid last : Pool σ Op Q A α} {before after : List (Action Op κ)}
    (holds : shared.inv first.state) (none : first.calls = [])
    (allowed : AllAllowed shared program first before)
    (allowed' : AllAllowed shared program mid after)
    (ran : Steps.run (step program shared.serve) first before = some mid)
    (ran' : Steps.run (step program shared.serve) mid after = some last) :
    shared.inv mid.state ∧ shared.inv last.state ∧ shared.later mid.state last.state ∧
      (∀ i op a, mid.Returned i op a → ∃ s, spec op i s mid.state a) ∧
      ∀ i op a, last.Returned i op a →
        ∃ s, (mid.calls.length ≤ i → shared.later mid.state s) ∧ spec op i s last.state a := by
  obtain ⟨inv, moved, keeps⟩ := run_keeps spec meets holds (fun _ => shared.refl first.state)
    (fun i call held => by rw [none] at held; cases held) allowed ran
  let low (i : Nat) : σ := if i < mid.calls.length then first.state else mid.state
  have below (i : Nat) : shared.later (low i) mid.state := by
    unfold low
    split
    · exact moved
    · exact shared.refl _
  obtain ⟨inv', moved', keeps'⟩ := run_keeps spec meets inv below
    (fun i call held => by
      obtain ⟨s, began, met⟩ := keeps i call held
      have old : low i = first.state := if_pos (List.getElem?_eq_some_iff.mp held).1
      exact ⟨s, old ▸ began, met⟩) allowed' ran'
  refine ⟨inv, inv', moved', fun i op a returned => ?_, fun i op a returned => ?_⟩
  · obtain ⟨s, -, met⟩ := Keeps.returned inv returned keeps
    exact ⟨s, met⟩
  · obtain ⟨s, began, met⟩ := Keeps.returned inv' returned keeps'
    refine ⟨s, fun new => ?_, met⟩
    have later : low i = mid.state := if_neg (Nat.not_lt.mpr new)
    exact later ▸ began

end

section
variable {program : Op → Asks Q A α} {serve : Nat → σ → (request : Q) → κ → σ × A request}
  {P : Op → Q → Prop} {R : List Op → σ → Prop}

/-- What is known of the calls of a run: what is left of each, and what holds of the state
beside those begun so far. -/
structure Asking (P : Op → Q → Prop) (R : List Op → σ → Prop) (pool : Pool σ Op Q A α) : Prop where
  left : ∀ call ∈ pool.calls, ∀ rest, call.rest = some rest → rest.Only (P call.op)
  holds : R (pool.calls.map Begun.op) pool.state

/-- A call goes on, or dies. -/
theorem Asking.set {pool : Pool σ Op Q A α} (asking : pool.Asking P R) {i : Nat} {op : Op}
    {rest rest' : Option (Asks Q A α)} {s : σ} (held : pool.calls[i]? = some ⟨op, rest⟩)
    (left : ∀ call, rest' = some call → call.Only (P op))
    (holds : R (pool.calls.map Begun.op) s) :
    (⟨s, pool.calls.set i ⟨op, rest'⟩⟩ : Pool σ Op Q A α).Asking P R where
  left call among := by
    rcases List.mem_or_eq_of_mem_set among with old | rfl
    · exact asking.left call old
    · exact left
  holds := by
    have same : (pool.calls.map Begun.op).set i op = pool.calls.map Begun.op := by
      apply List.ext_getElem?
      intro j
      rw [List.getElem?_set]
      split
      · rename_i at_
        subst at_
        rw [List.getElem?_map, held]
        exact if_pos (by rw [List.length_map]; exact (List.getElem?_eq_some_iff.mp held).1)
      · rfl
    rw [List.map_set, same]
    exact holds

theorem step_begun (only : ∀ op, (program op).Only (P op))
    (begins : ∀ ops op s, R ops s → R (ops ++ [op]) s)
    (serves : ∀ ops op i s q choice, op ∈ ops → P op q → R ops s → R ops (serve i s q choice).1)
    {pool next : Pool σ Op Q A α} {action : Action Op κ} (asking : pool.Asking P R)
    (stepped : pool.step program serve action = some next) : next.Asking P R := by
  cases action with
  | begin_ op =>
    cases stepped
    refine ⟨fun call among => ?_, ?_⟩
    · rcases List.mem_append.mp among with old | new
      · exact asking.left call old
      · cases List.mem_singleton.mp new
        rintro _ ⟨⟩
        exact only op
    · rw [List.map_append]
      exact begins _ op _ asking.holds
  | serve i choice =>
    dsimp only [step] at stepped
    split at stepped
    case h_2 => cases stepped
    case h_1 op request rest held =>
      cases stepped
      have among := List.mem_of_getElem? held
      obtain ⟨asked, further⟩ := asking.left _ among _ rfl
      refine asking.set held ?_ (serves _ op i _ _ choice ?_ asked asking.holds)
      · rintro _ ⟨⟩
        exact further _
      · exact List.mem_map.mpr ⟨_, among, rfl⟩
  | crash i =>
    dsimp only [step] at stepped
    split at stepped
    case h_2 => cases stepped
    case h_1 op rest held =>
      cases stepped
      exact asking.set held (by rintro _ ⟨⟩) asking.holds

theorem run_begun (only : ∀ op, (program op).Only (P op))
    (begins : ∀ ops op s, R ops s → R (ops ++ [op]) s)
    (serves : ∀ ops op i s q choice, op ∈ ops → P op q → R ops s → R ops (serve i s q choice).1)
    {first last : Pool σ Op Q A α} {actions : List (Action Op κ)} (none : first.calls = [])
    (holds : R [] first.state) (ran : Steps.run (step program serve) first actions = some last) :
    R (last.calls.map Begun.op) last.state := by
  have begun : first.Asking P R := by
    refine ⟨fun call among => ?_, by rwa [none]⟩
    rw [none] at among
    exact absurd among List.not_mem_nil
  exact (Steps.run_invariant _ (fun _ _ _ asking => step_begun only begins serves asking) begun
    ran).holds

end

end Pool
