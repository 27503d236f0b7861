import Oqueue.Library.Interleaved

/-!
# Calls that are given up

A caller may wait for a call only so long: at any of its requests it may be dropped, and the
request it waited for may still be served at any later time, or never. The caller goes on,
and keeps a state of its own beside the shared one.
-/

universe u

/-- What a caller waits for: a request, a request that it may give up, one that was given up and
lands, and a request of its own state. -/
inductive Await (Q L : Type u) : Type u where
  | plain (request : Q)
  | timed (request : Q)
  | land (place : Nat)
  | here (request : L)

namespace Await

variable {Q L : Type u} {A : Q → Type u} {B : L → Type u} {α : Type u}

def Answer (A : Q → Type u) (B : L → Type u) : Await Q L → Type u
  | .plain request => A request
  | .timed request => Option (A request)
  | .land _ => PUnit
  | .here request => B request

/-- The call, waited for to its end. -/
def whole : Asks Q A α → Asks (Await Q L) (Answer A B) α
  | .done a => .done a
  | .ask request next => .ask (.plain request) fun (answer : A request) => whole (next answer)

def within : Asks Q A α → Asks (Await Q L) (Answer A B) (Option α)
  | .done a => .done (some a)
  | .ask request next => .ask (.timed request) fun (answer : Option (A request)) =>
    answer.elim (.done none) fun answer => within (next answer)

def landed (place : Nat) : Asks (Await Q L) (Answer A B) PUnit :=
  .ask (.land place) .done

def own (request : L) : Asks (Await Q L) (Answer A B) (B request) :=
  .ask (.here request) .done

end Await

/-- A shared state, the callers' own, and the requests that were given up and may yet land. -/
structure Around (σ τ : Type) (Q : Type) where
  state : σ
  own : τ
  late : List (Nat × Q) := []

/-- How one request goes: given up or not, and if so whether it may land. -/
structure Turn (κ κ' : Type) where
  choice : κ
  mine : κ'
  expired : Bool := false
  lingers : Bool := false

/-- A state of the callers' own, beside a shared one: how it takes a request, and what holds of
it for good. -/
structure Own {σ κ Q : Type} {A : Q → Type} (shared : Resource Nat σ κ Q A) (τ κ' L : Type)
    (B : L → Type) where
  serve : Nat → τ → (request : L) → κ' → τ × B request
  fits : σ → τ → Prop
  lasts : ∀ {s t h}, shared.later s t → fits s h → fits t h

namespace Around

variable {σ τ κ κ' Q L α : Type} {A : Q → Type} {B : L → Type} {shared : Resource Nat σ κ Q A}
  {own : Own shared τ κ' L B}

def serve (own : Own shared τ κ' L B) (who : Nat) (w : Around σ τ Q) :
    (request : Await Q L) → Turn κ κ' → Around σ τ Q × Await.Answer A B request
  | .plain request, turn =>
    let served := shared.serve who w.state request turn.choice
    ({ w with state := served.1 }, served.2)
  | .timed request, turn =>
    if turn.expired then
      (if turn.lingers then { w with late := w.late ++ [(who, request)] } else w, none)
    else
      let served := shared.serve who w.state request turn.choice
      ({ w with state := served.1 }, some served.2)
  | .land place, turn =>
    match w.late[place]? with
    | none => (w, ⟨⟩)
    | some (sender, request) =>
      ({ w with
        state := (shared.serve sender w.state request turn.choice).1
        late := w.late.eraseIdx place }, ⟨⟩)
  | .here request, turn =>
    let served := own.serve who w.own request turn.mine
    ({ w with own := served.1 }, served.2)

def Allows (shared : Resource Nat σ κ Q A) (who : Nat) (w : Around σ τ Q) :
    Await Q L → Turn κ κ' → Prop
  | .plain request, turn => shared.allows who w.state request turn.choice
  | .timed request, turn =>
    turn.expired = false → shared.allows who w.state request turn.choice
  | .land _, _ | .here _, _ => True

instance [∀ who s request choice, Decidable (shared.allows who s request choice)] (who : Nat)
    (w : Around σ τ Q) : (request : Await Q L) → (turn : Turn κ κ') →
      Decidable (Allows shared who w request turn)
  | .plain request, turn =>
    inferInstanceAs (Decidable (shared.allows who w.state request turn.choice))
  | .timed request, turn =>
    inferInstanceAs
      (Decidable (turn.expired = false → shared.allows who w.state request turn.choice))
  | .land _, _ | .here _, _ => isTrue trivial

/-- Whenever it lands, the request keeps to what the others rely on. -/
def Harmless (shared : Resource Nat σ κ Q A) (s : σ) (waiting : Nat × Q) : Prop :=
  (Asks.request waiting.2 : Asks Q A _).Meets shared waiting.1 (fun _ _ => True) s

variable (own) in
/-- The shared state as the callers' own is kept beside it. -/
def shared' : Resource Nat (Around σ τ Q) (Turn κ κ') (Await Q L) (Await.Answer A B) where
  serve := serve own
  allows := Allows shared
  inv w := shared.inv w.state ∧ own.fits w.state w.own ∧
    ∀ waiting ∈ w.late, Harmless shared w.state waiting
  later v w := shared.later v.state w.state
  refl w := shared.refl w.state
  trans first second := shared.trans first second

variable {who : Nat} {w : Around σ τ Q} {post : σ → α → Prop} {call : Asks Q A α}

theorem inv_moved {s : σ} (holds : (shared' own).inv w) (kept : shared.inv s)
    (moved : shared.later w.state s) : (shared' own).inv { w with state := s } := by
  obtain ⟨-, fits, late⟩ := holds
  exact ⟨kept, own.lasts moved fits, fun waiting among => (late waiting among).after moved⟩

theorem whole_meets (meets : call.Meets shared who post w.state) :
    (Await.whole call).Meets (shared' own) who (fun v a => post v.state a) w := by
  induction call generalizing w with
  | done a => exact fun v later holds => meets v.state later holds.1
  | ask request next ih =>
    intro v later holds turn
    obtain ⟨kept, moved, rest⟩ := meets v.state later holds.1 turn.choice
    exact ⟨inv_moved holds kept moved, moved, fun allowed => ih _ (rest allowed)⟩

theorem within_meets (meets : call.Meets shared who post w.state) :
    (Await.within call).Meets (shared' own) who
      (fun v answer => ∀ a, answer = some a → post v.state a) w := by
  induction call generalizing w with
  | done a =>
    rintro v later holds _ ⟨⟩
    exact meets v.state later holds.1
  | ask request next ih =>
    intro v later holds turn
    dsimp only [shared', serve]
    cases expired : turn.expired with
    | false =>
      obtain ⟨kept, moved, rest⟩ := meets v.state later holds.1 turn.choice
      exact ⟨inv_moved holds kept moved, moved, fun allowed => ih _ (rest (allowed expired))⟩
    | true =>
      have harmless : Harmless shared v.state (who, request) := by
        intro t further held choice
        obtain ⟨kept, moved, -⟩ := meets t (shared.trans later further) held choice
        exact ⟨kept, moved, fun _ _ _ _ => trivial⟩
      have silent {v' : Around σ τ Q} : (Asks.done none : Asks (Await Q L) (Await.Answer A B)
          (Option α)).Meets (shared' own) who
          (fun v answer => ∀ a, answer = some a → post v.state a) v' := fun _ _ _ => nofun
      cases turn.lingers with
      | false => exact ⟨holds, shared.refl _, fun _ => silent⟩
      | true =>
        obtain ⟨kept, fits, late⟩ := holds
        refine ⟨⟨kept, fits, fun waiting among => ?_⟩, shared.refl _, fun _ => silent⟩
        rcases List.mem_append.mp among with old | new
        · exact late waiting old
        · exact List.mem_singleton.mp new ▸ harmless

theorem landed_meets (place : Nat) :
    (Await.landed place).Meets (shared' own) who (fun _ _ => True) w := by
  intro v _ holds turn
  dsimp only [shared', serve]
  cases there : v.late[place]? with
  | none => exact ⟨holds, shared.refl _, fun _ _ _ _ => trivial⟩
  | some waiting =>
    obtain ⟨kept, moved, -⟩ := holds.2.2 waiting (List.mem_of_getElem? there) v.state
      (shared.refl _) holds.1 turn.choice
    obtain ⟨kept, fits, late⟩ := inv_moved holds kept moved
    refine ⟨⟨kept, fits, fun other among => ?_⟩, moved, fun _ _ _ _ => trivial⟩
    exact late other (List.mem_of_mem_eraseIdx among)

theorem own_meets {request : L} {post : Around σ τ Q → B request → Prop}
    (serves : ∀ v, (shared' own).later w v → (shared' own).inv v → ∀ mine,
      own.fits v.state (own.serve who v.own request mine).1 ∧
      ∀ u, (shared' own).later v u → post u (own.serve who v.own request mine).2) :
    (Await.own request).Meets (shared' own) who post w := by
  intro v later holds turn
  obtain ⟨fits, told⟩ := serves v later holds turn.mine
  exact ⟨⟨holds.1, fits, holds.2.2⟩, shared.refl _, fun _ u further _ => told u further⟩

end Around
