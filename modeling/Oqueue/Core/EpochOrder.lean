import Oqueue.Core.WriterEpoch

/-!
# Epochs are handed out once, and upwards

The terms in the store have no gap, and a term's object is created once: whoever
creates one finds every older term taken. The caller that founds the line returns only
after it has written the marker, while others may already have gone past it.
-/

namespace Oqueue.WriterEpoch

theorem key_injective {m n : Nat} (hm : m ≤ maxWriterEpoch) (hn : n ≤ maxWriterEpoch)
    (same : key m = key n) : m = n := by
  have number (k : Nat) (hk : k ≤ maxWriterEpoch) : Decimal.number (key k) = k := by
    rw [key, Decimal.number_padded]
    apply Nat.mod_eq_of_lt
    unfold maxWriterEpoch at hk
    omega
  rw [← number m hm, same, number n hn]

theorem key_ne_markerKey (n : Nat) : key n ≠ markerKey := by
  intro same
  have := congrArg List.length same
  simp [key, markerKey] at this

theorem nextTerm_eq_ok {newest next : Nat} (h : nextTerm newest = .ok next) :
    next = newest + 1 ∧ next ≤ maxWriterEpoch := by
  unfold nextTerm at h
  split at h
  · split at h
    · cases h
    · cases h
      exact ⟨rfl, by omega⟩
  · cases h

theorem holding_refused {magic : List UInt8} {refusal : Error} {found : Bool}
    (h : holding magic (.error refusal) = .ok found) : found = false := by
  unfold holding at h
  split at h
  · contradiction
  · cases h
    rfl
  · cases h

theorem created_refused {refusal : Error} {won : Bool} (h : created (.error refusal) = .ok won) :
    won = false := by
  unfold created at h
  split at h
  · contradiction
  · cases h
    rfl
  · cases h

theorem concat_sublist_concat {l h : List Event} {x y : Event}
    (order : (l ++ [y]).Sublist (h ++ [x])) : (l ++ [y]).Sublist h ∨ (y = x ∧ l.Sublist h) := by
  rw [← List.reverse_sublist] at order
  simp only [List.reverse_append, List.reverse_singleton, List.singleton_append] at order
  rcases List.sublist_cons_iff.mp order with inside | ⟨r, same, inside⟩
  · left
    rw [← List.reverse_sublist]
    simpa using inside
  · cases same
    exact .inr ⟨rfl, List.reverse_sublist.mp inside⟩

theorem pair_sublist_concat {h : List Event} {x y z : Event} (order : [x, y].Sublist (h ++ [z])) :
    [x, y].Sublist h ∨ (y = z ∧ x ∈ h) :=
  (concat_sublist_concat (l := [x]) order).imp_right fun last =>
    ⟨last.1, List.singleton_sublist.mp last.2⟩

theorem triple_sublist_concat {h : List Event} {w x y z : Event}
    (order : [w, x, y].Sublist (h ++ [z])) : [w, x, y].Sublist h ∨ (y = z ∧ [w, x].Sublist h) :=
  concat_sublist_concat (l := [w, x]) order

namespace World

def Holds (s : World) (term : Nat) : Prop := key term ∈ s.objects.names

/-- Nobody was given this epoch, and whoever returned before `id` began got an older one. -/
structure Fresh (s : World) (id epoch : Nat) : Prop where
  unseen : ∀ a e, .returned a e ∈ s.history → e ≠ epoch
  above : ∀ a e, [.returned a e, .began id].Sublist s.history → e < epoch

end World

/-- The call has created the first term and has yet to return it. -/
def Call.Founder : Call → Prop
  | .marking _ newest | .checking _ newest => newest = none
  | _ => False

def Call.Relies (s : World) (id : Nat) : Call → Prop
  | .reading _ newest term rest => newest ∈ term :: rest ∨ s.Holds newest
  | .marking _ (some newest) | .checking _ (some newest) => s.Holds newest
  | .marking _ none | .checking _ none => s.Holds 0 ∧ s.Fresh id 0
  | .putting _ next => next ≤ maxWriterEpoch ∧ ∃ newest, next = newest + 1 ∧ s.Holds newest
  | _ => True

def Continues.Relies (s : World) (id : Nat) : Continues → Prop
  | .inl call => call.Relies s id
  | .inr (.ok epoch) => epoch ≤ maxWriterEpoch ∧ s.Holds epoch ∧ s.Fresh id epoch
  | .inr (.error _) => True

def Continues.Founds : Continues → Prop
  | .inl call => call.Founder
  | .inr (.ok epoch) => epoch = 0
  | .inr (.error _) => False

theorem relies_error (s : World) (id : Nat) (refusal : Error) (P : Prop) :
    Continues.Relies s id (.inr (.error refusal)) ∧
      (Continues.Founds (.inr (.error refusal)) → P) :=
  ⟨trivial, False.elim⟩

theorem relies_attempt (s : World) (id left : Nat) (P : Prop) :
    Continues.Relies s id (Call.attempt left) ∧ (Continues.Founds (Call.attempt left) → P) := by
  cases left with
  | zero => exact ⟨trivial, False.elim⟩
  | succ left => exact ⟨trivial, False.elim⟩

theorem relies_marked {s : World} {id left : Nat} {newest : Option Nat}
    (relies : (Call.marking left newest).Relies s id) :
    Continues.Relies s id (Call.marked left newest) ∧
      (Continues.Founds (Call.marked left newest) → newest = none) := by
  cases newest with
  | none => exact ⟨And.intro (Nat.zero_le _) relies, fun _ => rfl⟩
  | some newest =>
    simp only [Call.marked]
    split
    · exact relies_error s id _ _
    · rename_i next found
      obtain ⟨rfl, small⟩ := nextTerm_eq_ok found
      exact ⟨⟨small, newest, rfl, relies⟩, False.elim⟩

/-- A call that is told of an error goes on with what it relied on. -/
theorem relies_refused {s : World} {id : Nat} {call : Call} (relies : call.Relies s id)
    (refusal : Error) : Continues.Relies s id (call.resume (.error refusal)) ∧
      (Continues.Founds (call.resume (.error refusal)) → call.Founder) := by
  cases call with
  | listing left terms after => exact relies_error s id _ _
  | reading left newest term rest =>
    simp only [Call.resume]
    split
    · exact relies_error s id _ _
    · exact relies_error s id _ _
    · rename_i found
      exact absurd (holding_refused found) (by decide)
  | probing left =>
    simp only [Call.resume]
    split
    · exact relies_error s id _ _
    · exact relies_error s id _ _
    · exact ⟨trivial, False.elim⟩
  | founding left =>
    simp only [Call.resume]
    split
    · exact relies_error s id _ _
    · rename_i won
      exact absurd (created_refused won) (by decide)
    · exact relies_attempt s id left _
  | marking left newest =>
    simp only [Call.resume]
    split
    · exact relies_error s id _ _
    · exact relies_marked relies
    · exact ⟨by cases newest <;> exact relies, fun founder => founder⟩
  | checking left newest =>
    have relies' : (Call.marking left newest).Relies s id := by cases newest <;> exact relies
    simp only [Call.resume]
    split
    · exact relies_error s id _ _
    · exact relies_marked relies'
    · exact relies_error s id _ _
  | putting left next =>
    simp only [Call.resume]
    split
    · exact relies_error s id _ _
    · rename_i won
      exact absurd (created_refused won) (by decide)
    · exact relies_attempt s id left _

theorem relies_gathered (s : World) (id left : Nat) (terms : List Nat) (P : Prop) :
    Continues.Relies s id (Call.gathered left terms) ∧
      (Continues.Founds (Call.gathered left terms) → P) := by
  unfold Call.gathered
  split
  · exact relies_error s id _ _
  · split
    · rename_i newest last
      exact ⟨.inl (List.mem_of_getLast? last), False.elim⟩
    · exact ⟨trivial, False.elim⟩

theorem relies_turned (s : World) (id left : Nat) (terms : List Nat) (page : List Name) (P : Prop) :
    Continues.Relies s id (Call.turned left terms page) ∧
      (Continues.Founds (Call.turned left terms page) → P) := by
  unfold Call.turned
  split
  · exact relies_gathered s id left terms P
  · split
    · exact relies_error s id _ _
    · split
      · exact ⟨trivial, False.elim⟩
      · exact relies_gathered s id left _ P

namespace Store

theorem mem_names_of_lookup {objects : Store} {name : Name} {bytes : List UInt8}
    (h : objects.lookup name = some bytes) : name ∈ objects.names := by
  obtain ⟨before, after, rfl, -⟩ := List.lookup_eq_some_iff.mp h
  simp [names]

theorem mem_of_readTerm {objects : Store} {name : Name}
    (h : readTerm (objects.serve (.get name)).2 = .ok true) : name ∈ objects.names := by
  unfold serve at h
  dsimp only at h
  split at h
  · cases h
  · rename_i found
    exact mem_names_of_lookup found

theorem serve_put (objects : Store) (name : Name) (bytes : List UInt8) :
    (name ∈ objects.names ∧ (objects.serve (.put name bytes)).1 = objects ∧
      created (objects.serve (.put name bytes)).2 = .ok false) ∨
    (name ∉ objects.names ∧ (objects.serve (.put name bytes)).1.names = objects.names ++ [name] ∧
      created (objects.serve (.put name bytes)).2 = .ok true) := by
  by_cases there : name ∈ objects.names
  · exact .inl ⟨there, by simp [serve, there], by simp [serve, there, created]⟩
  · have written : objects.serve (.put name bytes) = (objects ++ [(name, bytes)], .ok ()) :=
      if_neg there
    rw [written]
    exact .inr ⟨there, by simp [names], rfl⟩

theorem names_serve (objects : Store) (request : Request) :
    (objects.serve request).1.names = objects.names ∨
      ∃ name bytes, request = .put name bytes ∧ name ∉ objects.names ∧
        (objects.serve request).1.names = objects.names ++ [name] := by
  cases request with
  | list after => exact .inl rfl
  | get name =>
    left
    unfold serve
    dsimp only
    split <;> rfl
  | put name bytes =>
    rcases serve_put objects name bytes with ⟨-, same, -⟩ | ⟨absent, grown, -⟩
    · exact .inl (congrArg names same)
    · exact .inr ⟨name, bytes, rfl, absent, grown⟩

theorem mem_serve {objects : Store} {request : Request} {name : Name} (h : name ∈ objects.names) :
    name ∈ (objects.serve request).1.names := by
  rcases names_serve objects request with same | ⟨_, _, -, -, grown⟩
  · rwa [same]
  · rw [grown]
    exact List.mem_append_left _ h

end Store

structure World.Sound (s : World) : Prop where
  closed : ∀ n m, s.Holds n → n ≤ maxWriterEpoch → m ≤ n → s.Holds m
  taken : ∀ a e, .returned a e ∈ s.history → e ≤ maxWriterEpoch ∧ s.Holds e
  once : ∀ a b e f, [.returned a e, .returned b f].Sublist s.history → e ≠ f
  later : ∀ a b e f, [.returned a e, .began b, .returned b f].Sublist s.history → e < f
  relies : ∀ id call, s.calls id = some call → call.Relies s id
  founder : ∀ a b c d, s.calls a = some c → s.calls b = some d → c.Founder → d.Founder → a = b

namespace World

variable {s : World} {id : Nat} {call : Call}

/-- What the request of `id` leaves of the store, once `id` has let go of its call. -/
def served (s : World) (id : Nat) (request : Request) : World :=
  { s with objects := (s.objects.serve request).1 }.setCall id none

theorem Holds.served {n : Nat} (h : s.Holds n) (request : Request) : (s.served id request).Holds n :=
  Store.mem_serve h

theorem calls_setCall (s : World) (id other : Nat) (call : Option Call) :
    (s.setCall id call).calls other = if other = id then call else s.calls other := by
  simp [setCall, Function.update_apply]

/-- The terms that are there after a request are those before, or one more by a call
that found the one below it there, and itself absent. -/
theorem holds_served (relies : call.Relies s id) {n : Nat} (h : (s.served id call.request).Holds n)
    (small : n ≤ maxWriterEpoch) : s.Holds n ∨ n = 0 ∨ ∃ m, n = m + 1 ∧ s.Holds m := by
  unfold Holds served setCall at h
  rcases Store.names_serve s.objects call.request with same | ⟨name, bytes, put, -, grown⟩
  · rw [same] at h
    exact .inl h
  · rw [grown] at h
    rcases List.mem_append.mp h with old | new
    · exact .inl old
    · have is_ := List.mem_singleton.mp new
      cases call with
      | founding left =>
        have named := (Request.put.inj put).1
        exact .inr (.inl (key_injective small (Nat.zero_le _) (is_.trans named.symm)))
      | marking left newest =>
        have named := (Request.put.inj put).1
        exact absurd (is_.trans named.symm) (key_ne_markerKey n)
      | putting left next =>
        have named := (Request.put.inj put).1
        obtain ⟨fits, newest, rfl, holds⟩ := relies
        exact .inr (.inr ⟨newest, key_injective small fits (is_.trans named.symm), holds⟩)
      | _ => simp [Call.request] at put

theorem Sound.lt_of_absent (h : s.Sound) {n m : Nat} (absent : ¬ s.Holds n) (there : s.Holds m)
    (small : m ≤ maxWriterEpoch) : m < n := by
  by_contra le
  exact absent (h.closed m n there small (Nat.not_lt.mp le))

theorem Sound.fresh (h : s.Sound) {n : Nat} (absent : ¬ s.Holds n) : s.Fresh id n where
  unseen a e returned same := absent (same ▸ (h.taken a e returned).2)
  above a e before := by
    have returned := h.taken a e (before.subset (List.mem_cons_self ..))
    exact h.lt_of_absent absent returned.2 returned.1

theorem Fresh.of_history {t : World} {epoch : Nat} (h : s.Fresh id epoch)
    (same : t.history = s.history) : t.Fresh id epoch where
  unseen := by
    rw [same]
    exact h.unseen
  above := by
    rw [same]
    exact h.above

end World

theorem Call.Relies.mono {s t : World} {id : Nat} {call : Call} (relies : call.Relies s id)
    (holds : ∀ n, s.Holds n → t.Holds n) (fresh : call.Founder → s.Fresh id 0 → t.Fresh id 0) :
    call.Relies t id := by
  cases call with
  | reading left newest term rest => exact relies.imp_right (holds newest)
  | marking left newest =>
    cases newest with
    | none => exact ⟨holds 0 relies.1, fresh rfl relies.2⟩
    | some newest => exact holds newest relies
  | checking left newest =>
    cases newest with
    | none => exact ⟨holds 0 relies.1, fresh rfl relies.2⟩
    | some newest => exact holds newest relies
  | putting left next =>
    obtain ⟨small, newest, same, there⟩ := relies
    exact ⟨small, newest, same, holds newest there⟩
  | _ => trivial

theorem Call.Founder.holds {s : World} {id : Nat} {call : Call} (founder : call.Founder)
    (relies : call.Relies s id) : s.Holds 0 := by
  cases call with
  | marking left newest =>
    cases founder
    exact relies.1
  | checking left newest =>
    cases founder
    exact relies.1
  | _ => exact founder.elim

theorem Call.Relies.served {s : World} {id : Nat} {call : Call} (relies : call.Relies s id)
    (other : Nat) (request : Request) : call.Relies (s.served other request) id :=
  relies.mono (fun _ there => World.Holds.served there request) fun _ fresh => fresh.of_history rfl

theorem Call.Relies.setCall {s : World} {id : Nat} {call : Call} (relies : call.Relies s id)
    (other : Nat) (place : Option Call) : call.Relies (s.setCall other place) id :=
  relies.mono (fun _ there => there) fun _ fresh => fresh.of_history rfl

theorem Continues.Relies.release {s : World} {id : Nat} {next : Continues}
    (relies : next.Relies s id) : next.Relies (s.setCall id none) id := by
  rcases next with call | refusal | epoch
  · exact Call.Relies.setCall relies id none
  · trivial
  · exact ⟨relies.1, relies.2.1, relies.2.2.of_history rfl⟩

namespace World

variable {s : World} {id : Nat} {call : Call}

theorem Sound.served (h : s.Sound) (at_ : s.calls id = some call) :
    (s.served id call.request).Sound where
  closed n m holds small le := by
    rcases holds_served (h.relies id call at_) holds small with old | rfl | ⟨k, rfl, old⟩
    · exact (h.closed n m old small le).served _
    · rw [Nat.le_zero.mp le]
      exact holds
    · rcases Nat.lt_or_eq_of_le le with lt | rfl
      · exact (h.closed k m old (by omega) (by omega)).served _
      · exact holds
  taken a e returned := ⟨(h.taken a e returned).1, (h.taken a e returned).2.served _⟩
  once := h.once
  later := h.later
  relies other c there := by
    simp only [World.served, calls_setCall] at there
    split at there
    · cases there
    · exact (h.relies other c there).served id call.request
  founder a b c d ha hb := by
    simp only [World.served, calls_setCall] at ha hb
    split at ha
    · cases ha
    · split at hb
      · cases hb
      · exact h.founder a b c d ha hb

/-- What the store answers leaves a call with what it relies on next; only the call that
creates the first term starts to be its founder. -/
theorem Sound.relies_served (h : s.Sound) (at_ : s.calls id = some call) :
    Continues.Relies (s.served id call.request) id (call.resume (s.objects.serve call.request).2) ∧
      (Continues.Founds (call.resume (s.objects.serve call.request).2) →
        call.Founder ∨ ¬ s.Holds 0) := by
  have relies := (h.relies id call at_).served id call.request
  cases call with
  | listing left terms after => exact relies_turned _ id left terms _ _
  | reading left newest term rest =>
    simp only [Call.resume, Call.request] at relies ⊢
    split
    · exact relies_error _ id _ _
    · exact relies_error _ id _ _
    · rename_i found
      have there : Holds (s.served id (.get (key term))) term :=
        Store.mem_serve (Store.mem_of_readTerm found)
      cases rest with
      | nil =>
        refine ⟨?_, fun founder => absurd founder (by simp [Continues.Founds, Call.Founder])⟩
        rcases relies with read | holds
        · rw [List.mem_singleton.mp read]
          exact there
        · exact holds
      | cons term' rest =>
        refine ⟨?_, False.elim⟩
        rcases relies with read | holds
        · rcases List.mem_cons.mp read with rfl | later
          · exact .inr there
          · exact .inl later
        · exact .inr holds
  | probing left =>
    simp only [Call.resume]
    split
    · exact relies_error _ id _ _
    · exact relies_error _ id _ _
    · exact ⟨trivial, False.elim⟩
  | founding left =>
    simp only [Call.resume, Call.request]
    rcases Store.serve_put s.objects (key 0) termMagic with ⟨-, -, lost⟩ | ⟨absent, grown, won⟩
    · rw [lost]
      exact relies_attempt _ id left _
    · rw [won]
      have there : Holds (s.served id (.put (key 0) termMagic)) 0 := by
        unfold Holds World.served setCall
        rw [grown]
        simp
      exact ⟨And.intro there ((h.fresh absent).of_history rfl), fun _ => .inr absent⟩
  | marking left newest =>
    simp only [Call.resume]
    split
    · exact relies_error _ id _ _
    · exact ⟨(relies_marked relies).1, fun founder => .inl ((relies_marked relies).2 founder)⟩
    · exact ⟨by cases newest <;> exact relies, fun founder => .inl founder⟩
  | checking left newest =>
    have relies' : (Call.marking left newest).Relies (s.served id (Call.checking left newest).request)
        id := by
      cases newest <;> exact relies
    simp only [Call.resume]
    split
    · exact relies_error _ id _ _
    · exact ⟨(relies_marked relies').1, fun founder => .inl ((relies_marked relies').2 founder)⟩
    · exact relies_error _ id _ _
  | putting left next =>
    obtain ⟨small, newest, rfl, holds⟩ := relies
    simp only [Call.resume, Call.request]
    rcases Store.serve_put s.objects (key (newest + 1)) termMagic with
      ⟨-, -, lost⟩ | ⟨absent, grown, won⟩
    · rw [lost]
      exact relies_attempt _ id left _
    · rw [won]
      have there : Holds (s.served id (.put (key (newest + 1)) termMagic)) (newest + 1) := by
        unfold Holds World.served setCall
        rw [grown]
        simp
      exact ⟨⟨small, there, (h.fresh absent).of_history rfl⟩, fun zero => absurd (zero : newest + 1 = 0)
        (Nat.succ_ne_zero newest)⟩

/-- A call that has gone on, or has returned, with what it relies on. -/
theorem Sound.continues (h : (s.setCall id none).Sound) {next : Continues}
    (relies : next.Relies (s.setCall id none) id)
    (alone : next.Founds → ∀ other c, other ≠ id → s.calls other = some c → ¬ c.Founder) :
    (s.continues id next).Sound := by
  have others (other : Nat) (c : Call) (different : other ≠ id) (there : s.calls other = some c) :
      (s.setCall id none).calls other = some c := by
    rw [calls_setCall, if_neg different, there]
  rcases next with call | refusal | epoch
  · refine ⟨h.closed, h.taken, h.once, h.later, ?_, ?_⟩
    · intro other c there
      simp only [World.continues, calls_setCall] at there
      split at there
      · rename_i same
        cases there
        subst same
        exact Call.Relies.mono relies (fun _ there => there) fun _ fresh => fresh.of_history rfl
      · rename_i different
        exact (h.relies other c (others other c different there)).mono (fun _ there => there)
          fun _ fresh => fresh.of_history rfl
    · intro a b c d ha hb founder founder'
      simp only [World.continues, calls_setCall] at ha hb
      split at ha
      · split at hb
        · simp [*]
        · rename_i different
          cases ha
          exact absurd founder' (alone founder b d different hb)
      · rename_i different
        split at hb
        · cases hb
          exact absurd founder (alone founder' a c different ha)
        · rename_i different'
          exact h.founder a b c d (others a c different ha) (others b d different' hb) founder
            founder'
  · exact h
  · obtain ⟨small, holds, fresh⟩ := relies
    refine ⟨h.closed, ?_, ?_, ?_, ?_, h.founder⟩
    · intro a e returned
      rcases List.mem_append.mp returned with old | new
      · exact h.taken a e old
      · cases List.mem_singleton.mp new
        exact ⟨small, holds⟩
    · intro a b e f order
      rcases pair_sublist_concat order with old | ⟨new, before⟩
      · exact h.once a b e f old
      · cases new
        exact fresh.unseen a e before
    · intro a b e f order
      rcases triple_sublist_concat order with old | ⟨new, before⟩
      · exact h.later a b e f old
      · cases new
        exact fresh.above a e before
    · intro other c there
      refine (h.relies other c there).mono (fun _ holds => holds) fun founder own => ?_
      have different : other ≠ id := by
        intro same
        rw [same] at there
        simp [World.continues, calls_setCall] at there
      have later : epoch ≠ 0 := fun zero => by
        refine alone zero other c different ?_ founder
        simpa [World.continues, calls_setCall, different] using there
      refine ⟨?_, ?_⟩
      · intro a e returned
        rcases List.mem_append.mp returned with old | new
        · exact own.unseen a e old
        · cases List.mem_singleton.mp new
          exact later
      · intro a e order
        rcases pair_sublist_concat order with old | ⟨new, -⟩
        · exact own.above a e old
        · cases new

/-- A call that begins has nothing behind it that it could fall back on. -/
theorem Sound.began (h : s.Sound) (free : s.calls id = none) :
    ({ s with history := s.history ++ [.began id] } : World).Sound := by
  refine ⟨h.closed, ?_, ?_, ?_, ?_, h.founder⟩
  · intro a e returned
    rcases List.mem_append.mp returned with old | new
    · exact h.taken a e old
    · cases List.mem_singleton.mp new
  · intro a b e f order
    rcases pair_sublist_concat order with old | ⟨new, -⟩
    · exact h.once a b e f old
    · cases new
  · intro a b e f order
    rcases triple_sublist_concat order with old | ⟨new, -⟩
    · exact h.later a b e f old
    · cases new
  · intro other c there
    refine (h.relies other c there).mono (fun _ holds => holds) fun founder own => ?_
    refine ⟨?_, ?_⟩
    · intro a e returned
      rcases List.mem_append.mp returned with old | new
      · exact own.unseen a e old
      · cases List.mem_singleton.mp new
    · intro a e order
      rcases pair_sublist_concat order with old | ⟨new, -⟩
      · exact own.above a e old
      · cases new
        rw [free] at there
        cases there

theorem Sound.release (h : s.Sound) (id : Nat) : (s.setCall id none).Sound := by
  refine ⟨h.closed, h.taken, h.once, h.later, ?_, ?_⟩
  · intro other c there
    rw [calls_setCall] at there
    split at there
    · cases there
    · exact (h.relies other c there).setCall id none
  · intro a b c d ha hb
    rw [calls_setCall] at ha hb
    split at ha
    · cases ha
    · split at hb
      · cases hb
      · exact h.founder a b c d ha hb

theorem step_sound {s t : World} {action : Action} (h : s.Sound) (stepped : s.step action = some t) :
    t.Sound := by
  cases action with
  | allocate id =>
    simp only [step] at stepped
    split at stepped
    · cases stepped
    · rename_i free
      cases stepped
      have free : s.calls id = none := by simpa using free
      have next := relies_attempt { s with history := s.history ++ [.began id] } id
        maxAllocationAttempts False
      exact ((h.began free).release id).continues next.1.release fun founds => absurd founds next.2
  | serve id =>
    obtain ⟨call, at_, stepped⟩ := Option.bind_eq_some_iff.mp stepped
    cases stepped
    obtain ⟨relies, founds⟩ := h.relies_served at_
    refine Sound.continues (h.served at_) relies ?_
    intro founder other c different there founder'
    rcases founds founder with before | absent
    · exact different (h.founder other id c call there at_ founder' before)
    · exact absent (founder'.holds (h.relies other c there))
  | unheard id refusal =>
    obtain ⟨call, at_, stepped⟩ := Option.bind_eq_some_iff.mp stepped
    cases stepped
    obtain ⟨relies, founds⟩ :=
      relies_refused ((h.relies id call at_).served id call.request) refusal
    refine Sound.continues (h.served at_) relies ?_
    intro founder other c different there founder'
    exact different (h.founder other id c call there at_ founder' (founds founder))
  | refuse id refusal =>
    obtain ⟨call, at_, stepped⟩ := Option.bind_eq_some_iff.mp stepped
    cases stepped
    obtain ⟨relies, founds⟩ := relies_refused (h.relies id call at_) refusal
    refine (h.release id).continues relies.release ?_
    intro founder other c different there founder'
    exact different (h.founder other id c call there at_ founder' (founds founder))
  | abandon id =>
    cases stepped
    exact h.release id

end World

/-- No epoch is returned twice, and none below one that was returned before its call began. -/
theorem epochs_once_and_upwards {actions : List Action} {s : World}
    (ran : Steps.run World.step {} actions = some s) :
    (∀ a b e f, [.returned a e, .returned b f].Sublist s.history → e ≠ f) ∧
      ∀ a b e f, [.returned a e, .began b, .returned b f].Sublist s.history → e < f := by
  have sound : s.Sound := by
    refine Steps.run_invariant World.Sound (fun _ _ _ => World.step_sound) ?_ ran
    constructor <;> simp [World.Holds, Store.names]
  exact ⟨sound.once, sound.later⟩

/-- Two calls race for the first epoch, and the loser goes on to the next. -/
theorem epochs_once_and_upwards_raced :
    ∃ s, Steps.run World.step {} [.allocate 0, .allocate 1, .serve 0, .serve 1, .serve 0, .serve 1,
      .serve 0, .serve 1, .serve 0, .serve 1, .serve 1, .serve 1, .serve 1, .serve 1] = some s ∧
      s.history = [.began 0, .began 1, .returned 0 0, .returned 1 1] ∧
      (∀ a b e f, [.returned a e, .returned b f].Sublist s.history → e ≠ f) ∧
      ∀ a b e f, [.returned a e, .began b, .returned b f].Sublist s.history → e < f := by
  have raced : (Steps.run World.step {} [.allocate 0, .allocate 1, .serve 0, .serve 1, .serve 0,
      .serve 1, .serve 0, .serve 1, .serve 0, .serve 1, .serve 1, .serve 1, .serve 1,
      .serve 1]).map World.history =
      some [.began 0, .began 1, .returned 0 0, .returned 1 1] := by decide
  obtain ⟨s, ran, history⟩ := Option.map_eq_some_iff.mp raced
  exact ⟨s, ran, history, epochs_once_and_upwards ran⟩

end Oqueue.WriterEpoch
