import Oqueue.Lease.Claim

/-!
# At most one holder

What every waiting call and every handle may rely on, kept by each step; so in
every state of every run at most one node's lease is held.
-/

namespace Oqueue.Lease

variable {Node : Type}

structure Renewal.Fits (s : Cluster Node) (node : Node) (renewal : Renewal) : Prop where
  begun : renewal.started ≤ s.clock node
  issued : renewal.token < s.nextToken
  own : ∃ object, s.objects renewal.term = some object ∧ object.writer = node ∧
    (object.token = renewal.token → ∀ expires, expiry object.body = .ok expires →
      expires ≤ saturatingAdd renewal.started leaseTtlMs)

/-- What holds of the node a call runs on, at each place the call waits. -/
def Call.Fits (s : Cluster Node) (node : Node) : Call → Prop
  | .searching started search => started ≤ s.clock node ∧
    ∀ n expires, search.observed = some (n, expires) → (s.objects n).isSome
  | .claiming started next => started ≤ s.clock node ∧
    ∀ n, next = n + 1 → (s.objects n).isSome
  | .claimed started next token => token < s.nextToken ∧
    Claim s node next (saturatingAdd started leaseTtlMs)
  | .probing renewal => renewal.Fits s node ∧
    (Claim s node renewal.term renewal.deadline ∨ (s.objects (renewal.term + 1)).isSome)
  | .renewing renewal => renewal.Fits s node ∧ Claim s node renewal.term renewal.deadline
  | .renewed renewal token => token < s.nextToken ∧
    (saturatingSub renewal.deadline leaseSkewMs ≤ s.clock node ∨
      Claim s node renewal.term (saturatingAdd renewal.started leaseTtlMs))
  | .superseded => True

structure Held.Fits (s : Cluster Node) (node : Node) (held : Held) : Prop where
  valid : held.validUntil ≤ s.clock node ∨ ∃ n, Claim s node n held.validUntil
  own : ∀ n, held.term = some n → ∃ object, s.objects n = some object ∧ object.writer = node
  issued : ∀ token, held.writeHandle = some token → token < s.nextToken

structure Cluster.Terms (s : Cluster Node) : Prop where
  readings : Readings s.clock
  issued : ∀ n object, s.objects n = some object → object.token < s.nextToken
  expires : ∀ n object, s.objects n = some object → ∃ expires, expiry object.body = .ok expires ∧
    expires ≤ saturatingAdd (s.clock object.writer) leaseTtlMs
  contiguous : ∀ n, (s.objects (n + 1)).isSome → (s.objects n).isSome

structure Cluster.Inv (s : Cluster Node) : Prop where
  terms : s.Terms
  held : ∀ node, (s.held node).Fits s node
  calls : ∀ id node call, s.calls id = some (node, call) → call.Fits s node

namespace Cluster

theorem Terms.isSome_of_le {s : Cluster Node} (h : s.Terms) {m n : Nat} (le : m ≤ n)
    (present : (s.objects n).isSome) : (s.objects m).isSome := by
  induction le with
  | refl => exact present
  | step _ ih => exact ih (h.contiguous _ present)

theorem Terms.stands {s : Cluster Node} (h : s.Terms) {n : Nat} {object : LeaseObject Node}
    (present : s.objects n = some object) : ∃ expires, s.Stands n object.writer expires ∧
      expires ≤ saturatingAdd (s.clock object.writer) leaseTtlMs := by
  obtain ⟨expires, reads, le⟩ := h.expires n object present
  exact ⟨expires, ⟨object, present, rfl, reads⟩, le⟩

theorem Terms.stands_le {s : Cluster Node} (h : s.Terms) {n : Nat} {node : Node} {expires : Int}
    (stands : s.Stands n node expires) : expires ≤ saturatingAdd (s.clock node) leaseTtlMs := by
  obtain ⟨object, present, rfl, reads⟩ := stands
  obtain ⟨e, reads', le⟩ := h.expires n object present
  rw [reads, Except.ok.injEq] at reads'
  exact reads' ▸ le

theorem Terms.read {s : Cluster Node} (h : s.Terms) {n : Nat} {expires : Int}
    (reads : s.read n = .ok (some expires)) : ∃ node, s.Stands n node expires := by
  unfold Cluster.read at reads
  cases present : s.objects n with
  | none => simp [present] at reads
  | some object =>
    obtain ⟨e, spelled, -⟩ := h.expires n object present
    simp only [present, spelled, Except.map, Except.ok.injEq, Option.some_inj] at reads
    exact ⟨_, object, present, rfl, reads ▸ spelled⟩

theorem read_none {s : Cluster Node} {n : Nat} (reads : s.read n = .ok none) :
    s.objects n = none := by
  unfold Cluster.read at reads
  cases present : s.objects n with
  | none => rfl
  | some object =>
    rw [present] at reads
    cases spelled : expiry object.body <;> simp [spelled, Except.map] at reads

theorem Stands.isSome {s : Cluster Node} {n : Nat} {node : Node} {expires : Int}
    (h : s.Stands n node expires) : (s.objects n).isSome := by
  obtain ⟨object, present, -⟩ := h
  simp [present]

/-- How the store and the clocks may move under a waiting call. -/
structure Grows (s s' : Cluster Node) : Prop where
  clock : ∀ node, s.clock node ≤ s'.clock node
  nextToken : s.nextToken ≤ s'.nextToken
  objects : ∀ n object, s.objects n = some object → ∃ object', s'.objects n = some object' ∧
    object'.writer = object.writer ∧ (object' = object ∨ s.nextToken ≤ object'.token)
  claims : ∀ node n moment, Claim s node n moment → Claim s' node n moment

theorem Grows.isSome {s s' : Cluster Node} (h : Grows s s') {n : Nat}
    (present : (s.objects n).isSome) : (s'.objects n).isSome := by
  obtain ⟨object, same⟩ := Option.isSome_iff_exists.mp present
  obtain ⟨object', same', -⟩ := h.objects n object same
  simp [same']

end Cluster

open Cluster

theorem Renewal.Fits.grow {s s' : Cluster Node} (grows : Grows s s') {node : Node}
    {renewal : Renewal} (h : renewal.Fits s node) : renewal.Fits s' node where
  begun := h.begun.trans (grows.clock node)
  issued := h.issued.trans_le grows.nextToken
  own := by
    obtain ⟨object, present, writer, bound⟩ := h.own
    obtain ⟨object', present', writer', rfl | fresh⟩ := grows.objects _ _ present
    · exact ⟨object', present', writer'.trans writer, bound⟩
    · refine ⟨object', present', writer'.trans writer, fun same => ?_⟩
      have := h.issued
      omega

theorem Call.Fits.grow {s s' : Cluster Node} (grows : Grows s s') {node : Node} {call : Call}
    (h : call.Fits s node) : call.Fits s' node := by
  cases call with
  | searching started search =>
    exact ⟨h.1.trans (grows.clock node), fun n e seen => grows.isSome (h.2 n e seen)⟩
  | claiming started next =>
    exact ⟨h.1.trans (grows.clock node), fun n same => grows.isSome (h.2 n same)⟩
  | claimed started next token =>
    exact ⟨h.1.trans_le grows.nextToken, grows.claims _ _ _ h.2⟩
  | probing renewal =>
    exact ⟨h.1.grow grows, h.2.imp (grows.claims _ _ _) grows.isSome⟩
  | renewing renewal => exact ⟨h.1.grow grows, grows.claims _ _ _ h.2⟩
  | renewed renewal token =>
    exact ⟨h.1.trans_le grows.nextToken,
      h.2.imp (fun passed => passed.trans (grows.clock node)) (grows.claims _ _ _)⟩
  | superseded => trivial

theorem Held.Fits.grow {s s' : Cluster Node} (grows : Grows s s') {node : Node} {held : Held}
    (h : held.Fits s node) : held.Fits s' node where
  valid := h.valid.imp (fun passed => passed.trans (grows.clock node))
    fun ⟨n, claim⟩ => ⟨n, grows.claims _ _ _ claim⟩
  own := by
    intro n same
    obtain ⟨object, present, writer⟩ := h.own n same
    obtain ⟨object', present', writer', -⟩ := grows.objects _ _ present
    exact ⟨object', present', writer'.trans writer⟩
  issued token same := (h.issued token same).trans_le grows.nextToken

theorem Held.Fits.unnamed {s : Cluster Node} {node : Node} {moment : Int}
    (passed : moment ≤ s.clock node) : (⟨none, none, moment⟩ : Held).Fits s node :=
  ⟨.inl passed, nofun, nofun⟩

theorem Held.Fits.lose {s : Cluster Node} (terms : s.Terms) (node : Node) :
    Held.lose.Fits s node := by
  have nonneg := (terms.readings node).1
  exact .unnamed (by omega)

theorem Cluster.Grows.setHeld [DecidableEq Node] (s : Cluster Node) (node : Node) (held : Held) :
    Grows s (s.setHeld node held) :=
  ⟨fun _ => le_refl _, le_refl _, fun _ object present => ⟨object, present, rfl, .inl rfl⟩,
    fun _ _ _ claim => ⟨claim.stands, claim.later, claim.spared⟩⟩

namespace Cluster.Inv

variable {s : Cluster Node}

theorem grow (h : s.Inv) {s' : Cluster Node} (grows : Grows s s') (terms : s'.Terms)
    (held : s'.held = s.held) (calls : s'.calls = s.calls) : s'.Inv where
  terms := terms
  held node := held ▸ (h.held node).grow grows
  calls id node call pending := (h.calls id node call (calls ▸ pending)).grow grows

theorem tick (h : s.Inv) {clock : Node → Int} (readings : Readings clock)
    (forward : ∀ a, s.clock a ≤ clock a) : ({ s with clock } : Cluster Node).Inv := by
  refine h.grow ?_ ?_ rfl rfl
  · exact ⟨forward, le_refl _, fun n object present => ⟨object, present, rfl, .inl rfl⟩,
      fun node n moment claim => claim.tick readings forward⟩
  · refine ⟨readings, h.terms.issued, ?_, h.terms.contiguous⟩
    intro n object present
    obtain ⟨expires, reads, le⟩ := h.terms.expires n object present
    exact ⟨expires, reads, le.trans (saturatingAdd_mono (forward _) _)⟩

theorem setCall (h : s.Inv) {id : Nat} {call : Option (Node × Call)}
    (fits : ∀ node c, call = some (node, c) → c.Fits s node)
    (spares : ∀ node c, call = some (node, c) → ∀ other n moment,
      Claim s other n moment → c.Spares s.clock other n moment) : (s.setCall id call).Inv := by
  have grows : Grows s (s.setCall id call) :=
    ⟨fun _ => le_refl _, le_refl _, fun n object present => ⟨object, present, rfl, .inl rfl⟩,
      fun other n moment claim => claim.setCall fun node c same =>
        spares node c same other n moment claim⟩
  refine ⟨⟨h.terms.readings, h.terms.issued, h.terms.expires, h.terms.contiguous⟩,
    fun node => (h.held node).grow grows, ?_⟩
  intro id' node c pending
  simp only [Cluster.setCall, Function.update_apply] at pending
  split at pending
  · exact (fits node c pending).grow grows
  · exact (h.calls id' node c pending).grow grows

theorem dropCall (h : s.Inv) (id : Nat) : (s.setCall id none).Inv :=
  h.setCall (nofun) nofun

theorem setHeld [DecidableEq Node] (h : s.Inv) {node : Node} {held : Held}
    (fits : held.Fits s node) : (s.setHeld node held).Inv := by
  have grows := Grows.setHeld s node held
  refine ⟨⟨h.terms.readings, h.terms.issued, h.terms.expires, h.terms.contiguous⟩, ?_,
    fun id other call pending => (h.calls id other call pending).grow grows⟩
  intro other
  by_cases same : other = node
  · subst same
    simpa [Cluster.setHeld] using fits.grow grows
  · simpa [Cluster.setHeld, same] using (h.held other).grow grows

/-- A write that spares every claim, at a term that is there or comes next. -/
theorem written (h : s.Inv) {writer : Node} {term : Nat} {started : Int}
    (begun : started ≤ s.clock writer)
    (next : ∀ n, term = n + 1 → (s.objects n).isSome)
    (kept : ∀ object, s.objects term = some object → object.writer = writer)
    (spares : ∀ node n moment, Claim s node n moment →
      (term = n → writer = node ∧ moment ≤ saturatingAdd started leaseTtlMs) ∧
      (n < term → moment ≤ s.clock node ∨
        (s.clock writer = i64Max ∧ saturatingAdd started leaseTtlMs = i64Max))) :
    (s.written writer term (saturatingAdd started leaseTtlMs)).Inv ∧
      Grows s (s.written writer term (saturatingAdd started leaseTtlMs)) := by
  have grows : Grows s (s.written writer term (saturatingAdd started leaseTtlMs)) := by
    refine ⟨fun _ => le_refl _, Nat.le_succ _, ?_, fun node n moment claim =>
      claim.written (spares node n moment claim).1 (spares node n moment claim).2⟩
    intro n object present
    rw [objects_written]
    split
    · rename_i same
      exact ⟨_, rfl, (kept object (same ▸ present)).symm, .inr (le_refl _)⟩
    · exact ⟨object, present, rfl, .inl rfl⟩
  refine ⟨h.grow grows ?_ rfl rfl, grows⟩
  refine ⟨h.terms.readings, ?_, ?_, ?_⟩
  · intro n object present
    rw [objects_written] at present
    split at present
    · cases present
      exact Nat.lt_succ_self _
    · exact (h.terms.issued n object present).trans (Nat.lt_succ_self _)
  · intro n object present
    rw [objects_written] at present
    split at present
    · cases present
      exact ⟨_, expiry_body _ _, saturatingAdd_mono begun _⟩
    · exact h.terms.expires n object present
  · intro n present
    by_cases same : n + 1 = term
    · exact grows.isSome (next n same.symm)
    · refine grows.isSome (h.terms.contiguous n ?_)
      simpa [objects_written, same] using present

end Cluster.Inv

/-- A challenger that read `expires` at term `m` is held off by every claim. -/
structure Observes (s : Cluster Node) (started : Int) (m : Nat) (expires : Int) : Prop where
  present : (s.objects m).isSome
  same : ∀ node moment, Claim s node m moment → moment ≤ expires ∨ moment ≤ s.clock node ∨
    started < saturatingAdd expires leaseSkewMs
  beyond : ∀ node n moment, n < m → Claim s node n moment →
    moment ≤ s.clock node ∨ expires = i64Max

/-- What a call that goes on relies on, and whom it spares. -/
def Continues.Fits (s : Cluster Node) (node : Node) (next : Continues) : Prop :=
  ∀ call, next = .inl call → call.Fits s node ∧
    ∀ other n moment, Claim s other n moment → call.Spares s.clock other n moment

namespace Cluster.Inv

variable {s s' : Cluster Node} {node : Node} {id : Nat} {next : Continues}

theorem observes (h : s.Inv) {started : Int} {search : Search Int}
    (pending : s.calls id = some (node, .searching started search)) {answer : Option Int}
    (reads : s.read search.probe = .ok answer) {m : Nat} {expires : Int}
    (seen : search.seen answer = some (m, expires)) : Observes s started m expires := by
  cases answer with
  | none =>
    have fits := h.calls id node _ pending
    exact ⟨fits.2 m expires seen,
      fun other moment claim => ((claim.spared id node _ pending) m expires seen).1 rfl,
      fun other n moment lt claim => ((claim.spared id node _ pending) m expires seen).2 lt⟩
  | some read =>
    cases seen
    obtain ⟨writer, stands⟩ := h.terms.read reads
    exact ⟨stands.isSome, fun other moment claim => .inl (claim.le_expires stands).2,
      fun other n moment lt claim => (claim.later _ _ _ lt stands).imp_right And.right⟩

/-- A challenger past the expiry it read finds every claim past, or its own clock stopped. -/
theorem challenge (h : s.Inv) {started : Int} (begun : started ≤ s.clock node)
    {newest : Option (Nat × Int)}
    (observed : ∀ m expires, newest = some (m, expires) → Observes s started m expires) :
    (Call.challenge started newest).Fits s node := by
  intro call same
  cases newest with
  | none =>
    cases same
    exact ⟨⟨begun, fun n absurd => by omega⟩, fun other n moment claim lt => absurd lt (by omega)⟩
  | some newest =>
    obtain ⟨m, expires⟩ := newest
    have seen := observed m expires rfl
    simp only [Call.challenge] at same
    split at same
    · cases same
    · rename_i elapsed
      split at same
      · cases same
      · rename_i next advanced
        obtain ⟨rfl, -⟩ := CommitVersion.advance_eq_ok.mp advanced
        cases same
        refine ⟨⟨begun, fun n eq => ?_⟩, fun other n moment claim lt => ?_⟩
        · obtain rfl : n = m := by omega
          exact seen.present
        · have upper := (h.terms.readings node).2.1
          have skew := (h.terms.readings node).2.2 other
          obtain rfl | less := Nat.lt_succ_iff_lt_or_eq.mp lt |>.symm
          · have := seen.same other moment claim
            simp only [saturatingAdd_eq, i64Max_eq, leaseSkewMs] at *
            omega
          · have := seen.beyond other n moment less claim
            simp only [saturatingAdd_eq, i64Max_eq, leaseSkewMs] at *
            omega

theorem searched (h : s.Inv) {started : Int} {search : Search Int}
    (pending : s.calls id = some (node, .searching started search)) :
    (Call.searched started search (s.read search.probe)).Fits s node := by
  have begun := (h.calls id node _ pending).1
  cases reads : s.read search.probe with
  | error refusal =>
    intro call same
    cases same
  | ok answer =>
    have observes := fun m expires => @observes _ _ _ _ h started search pending answer reads m expires
    simp only [Call.searched]
    cases resumed : search.resume (2 ^ 64) searchProbes answer with
    | ask search' =>
      intro call same
      cases same
      have seen := Search.observed_of_ask resumed
      refine ⟨⟨begun, fun m expires at_ => (observes m expires (seen ▸ at_)).present⟩, ?_⟩
      intro other n moment claim m expires at_
      have spared := observes m expires (seen ▸ at_)
      refine ⟨fun eq => spared.same other moment (eq ▸ claim), fun lt => ?_⟩
      exact spared.beyond other n moment lt claim
    | found newest =>
      obtain rfl := Search.newest_of_found resumed
      exact h.challenge begun observes
    | overflow absent =>
      intro call same
      cases same
    | spun =>
      intro call same
      cases same

/-- A term that was free when it was taken is relied on by its taker alone. -/
theorem claimed (h : s.Inv) {started : Int} {term : Nat} (free : s.objects term = none) :
    Claim (s.written node term (saturatingAdd started leaseTtlMs)) node term
      (saturatingAdd started leaseTtlMs) := by
  have below : ∀ m, (s.objects m).isSome → m < term := by
    intro m present
    by_contra le
    have := h.terms.isSome_of_le (Nat.le_of_not_lt le) present
    simp [free] at this
  refine ⟨⟨_, stands_written.mpr (by simp), le_refl _⟩, ?_, ?_⟩
  · intro m other expires lt stands
    rw [stands_written, if_neg (by omega)] at stands
    have := below m stands.isSome
    omega
  · intro id other call pending
    have fits := h.calls id other call pending
    cases call with
    | searching started' search =>
      intro m expires seen
      have := below m (fits.2 m expires seen)
      exact ⟨fun eq => by omega, fun lt => by omega⟩
    | claiming started' next =>
      intro lt
      have := below (next - 1) (fits.2 (next - 1) (by omega))
      omega
    | _ => trivial

theorem serve_claiming (h : s.Inv) {started : Int} {term : Nat}
    (pending : s.calls id = some (node, .claiming started term))
    (free : s.objects term = none) :
    (s.written node term (saturatingAdd started leaseTtlMs)).Inv := by
  have fits := h.calls id node _ pending
  refine (h.written fits.1 fits.2 (fun object present => by simp [free] at present) ?_).1
  intro other n moment claim
  constructor
  · rintro rfl
    obtain ⟨e, stands, -⟩ := claim.stands
    have := stands.isSome
    simp [free] at this
  · intro lt
    obtain passed | stopped := claim.spared id node _ pending lt
    · exact .inl passed
    · have upper := (h.terms.readings node).2.1
      have begun := fits.1
      simp only [saturatingAdd_eq, i64Max_eq, leaseTtlMs] at *
      omega

theorem replaced (h : s.Inv) {renewal : Renewal} (fits : renewal.Fits s node)
    (matched : (s.objects renewal.term).map LeaseObject.token = some renewal.token) :
    ∃ expires, s.Stands renewal.term node expires ∧
      expires ≤ saturatingAdd renewal.started leaseTtlMs := by
  obtain ⟨object, present, writer, bound⟩ := fits.own
  obtain ⟨expires, reads, -⟩ := h.terms.expires _ _ present
  simp only [present, Option.map_some, Option.some_inj] at matched
  exact ⟨expires, ⟨object, present, writer, reads⟩, bound matched expires reads⟩

theorem serve_renewing (h : s.Inv) {renewal : Renewal} (fits : renewal.Fits s node)
    (matched : (s.objects renewal.term).map LeaseObject.token = some renewal.token) :
    (s.written node renewal.term (saturatingAdd renewal.started leaseTtlMs)).Inv := by
  obtain ⟨expires, stands, le⟩ := h.replaced fits matched
  refine (h.written fits.begun ?_ ?_ ?_).1
  · intro n same
    exact h.terms.contiguous n (same ▸ stands.isSome)
  · obtain ⟨object, present, writer, -⟩ := fits.own
    intro object' present'
    rw [present, Option.some_inj] at present'
    exact present' ▸ writer
  · intro other n moment claim
    constructor
    · rintro rfl
      obtain ⟨rfl, reached⟩ := claim.le_expires stands
      exact ⟨rfl, reached.trans le⟩
    · intro lt
      obtain passed | ⟨stopped, last⟩ := claim.later _ _ _ lt stands
      · exact .inl passed
      · exact .inr ⟨stopped, le_antisymm (saturatingAdd_le _ _) (last ▸ le)⟩

/-- A renewal that landed well before its old deadline is relied on until its new one. -/
theorem renewed (h : s.Inv) {renewal : Renewal}
    (claim : Claim s node renewal.term renewal.deadline)
    (intime : s.clock node < saturatingSub renewal.deadline leaseSkewMs) :
    Claim (s.written node renewal.term (saturatingAdd renewal.started leaseTtlMs)) node
      renewal.term (saturatingAdd renewal.started leaseTtlMs) := by
  obtain ⟨expires, stands, reached⟩ := claim.stands
  have wire : renewal.deadline ≤ i64Max :=
    reached.trans ((h.terms.stands_le stands).trans (saturatingAdd_le _ _))
  refine ⟨⟨_, stands_written.mpr (by simp), le_refl _⟩, ?_, ?_⟩
  · intro m other e lt stands'
    rw [stands_written, if_neg (by omega)] at stands'
    obtain passed | stopped := claim.later m other e lt stands'
    · have nonneg := (h.terms.readings node).1
      simp only [saturatingSub_eq, clock_written, leaseSkewMs] at *
      omega
    · exact .inr stopped
  · intro id other call pending
    have begun : ∀ started search, call = .searching started search → started ≤ s.clock other := by
      rintro started search rfl
      exact (h.calls id other _ pending).1
    exact (claim.spared id other call pending).extend h.terms.readings wire intime begun

theorem serve (h : s.Inv) {call : Call} (pending : s.calls id = some (node, call))
    (served : s.serve node call = some (s', next)) : s'.Inv ∧ next.Fits s' node := by
  have fits := h.calls id node call pending
  cases call with
  | searching started search =>
    cases served
    exact ⟨h, h.searched pending⟩
  | claiming started term =>
    simp only [Cluster.serve] at served
    split at served
    · rename_i written put
      obtain ⟨met, rfl⟩ := put_eq_some.mp put
      cases served
      have free : s.objects term = none := Option.isNone_iff_eq_none.mp met
      refine ⟨h.serve_claiming pending free, ?_⟩
      intro call same
      cases same
      exact ⟨⟨Nat.lt_succ_self _, h.claimed free⟩, fun _ _ _ _ => trivial⟩
    · cases served
      exact ⟨h, nofun⟩
  | probing renewal =>
    simp only [Cluster.serve] at served
    split at served
    · cases served
      exact ⟨h, nofun⟩
    · cases served
      refine ⟨h, fun call same => ?_⟩
      cases same
      exact ⟨trivial, fun _ _ _ _ => trivial⟩
    · rename_i reads
      cases served
      refine ⟨h, fun call same => ?_⟩
      cases same
      have absent := read_none reads
      exact ⟨⟨fits.1, fits.2.resolve_right (by simp [absent])⟩, fun _ _ _ _ => trivial⟩
  | renewing renewal =>
    simp only [Cluster.serve] at served
    split at served
    · rename_i written put
      obtain ⟨met, rfl⟩ := put_eq_some.mp put
      cases served
      have matched : (s.objects renewal.term).map LeaseObject.token = some renewal.token := by
        simpa [Precondition.met] using met
      refine ⟨h.serve_renewing fits.1 matched, fun call same => ?_⟩
      cases same
      refine ⟨⟨Nat.lt_succ_self _, ?_⟩, fun _ _ _ _ => trivial⟩
      exact (le_or_gt _ _).imp_right fun intime => h.renewed fits.2 intime
    · cases served
      refine ⟨h, fun call same => ?_⟩
      cases same
      exact ⟨trivial, fun _ _ _ _ => trivial⟩
  | claimed started term token => cases served
  | renewed renewal token => cases served
  | superseded => cases served

theorem continues [DecidableEq Node] (h : s.Inv) (fits : next.Fits s node) :
    (s.continues id node next).Inv := by
  cases next with
  | inr returned => exact h.dropCall id
  | inl call =>
    obtain ⟨call_fits, spares⟩ := fits call rfl
    refine h.setCall ?_ ?_
    · rintro _ _ ⟨⟩
      exact call_fits
    · rintro _ _ ⟨⟩
      exact spares

/-- The last answer arrives: what the node then holds, it may rely on. -/
theorem finish (h : s.Inv) {call : Call} (pending : s.calls id = some (node, call)) {held : Held}
    {answer : Bool} (finished : (s.held node).finish (s.clock node) call = some (held, answer)) :
    held.Fits s node := by
  have fits := h.calls id node call pending
  have before := h.held node
  cases call with
  | claimed started term token =>
    cases finished
    refine ⟨.inr ⟨term, fits.2⟩, ?_, ?_⟩
    · rintro n ⟨⟩
      obtain ⟨expires, ⟨object, present, writer, -⟩, -⟩ := fits.2.stands
      exact ⟨object, present, writer⟩
    · rintro token ⟨⟩
      exact fits.1
  | renewed renewal token =>
    cases finished
    refine ⟨?_, before.own, ?_⟩
    · dsimp only
      split
      · rename_i intime
        exact .inr ⟨_, fits.2.resolve_left (not_le.mpr intime)⟩
      · exact before.valid
    · rintro token ⟨⟩
      exact fits.1
  | superseded =>
    cases finished
    exact .lose h.terms node
  | searching started search => cases finished
  | claiming started term => cases finished
  | probing renewal => cases finished
  | renewing renewal => cases finished

/-- A handle whose deadline has not passed claims the very term it names, unless
a newer term is there for the renewal to find. -/
theorem claims_term (h : s.Inv) {n : Nat} (names : (s.held node).term = some n)
    (valid : s.clock node < (s.held node).validUntil) :
    Claim s node n (s.held node).validUntil ∨ (s.objects (n + 1)).isSome := by
  obtain ⟨m, claim⟩ := (h.held node).valid.resolve_left (not_le.mpr valid)
  obtain ⟨object, present, writer⟩ := (h.held node).own n names
  obtain lt | rfl | gt := lt_trichotomy m n
  · obtain ⟨expires, stands, -⟩ := h.terms.stands present
    obtain ⟨e, mine, reached⟩ := claim.stands
    have wire := (h.terms.stands_le mine).trans (saturatingAdd_le _ _)
    obtain passed | ⟨stopped, -⟩ := claim.later n _ _ lt stands
    · omega
    · rw [writer] at stopped
      omega
  · exact .inl claim
  · obtain ⟨e, stands, -⟩ := claim.stands
    exact .inr (h.terms.isSome_of_le gt stands.isSome)

theorem renew (h : s.Inv) {held : Held} (began : (s.held node).renew (s.clock node) = (held, next)) :
    held.Fits s node ∧ next.Fits s node := by
  have before := h.held node
  unfold Held.renew at began
  split at began
  · rename_i term token names handle
    split at began
    · cases began
      exact ⟨.lose h.terms node, nofun⟩
    · rename_i lapsed
      split at began
      · cases began
        exact ⟨before, nofun⟩
      · cases began
        refine ⟨before, fun call same => ?_⟩
        cases same
        refine ⟨⟨⟨le_refl _, before.issued token handle, ?_⟩,
          h.claims_term names (not_le.mp lapsed)⟩, fun _ _ _ _ => trivial⟩
        obtain ⟨object, present, writer⟩ := before.own term names
        refine ⟨object, present, writer, fun _ expires reads => ?_⟩
        exact h.terms.stands_le ⟨object, present, writer, reads⟩
  · cases began
    exact ⟨before, nofun⟩

theorem step [Fintype Node] [DecidableEq Node] (h : s.Inv) {action : Action Node}
    (stepped : s.step action = some s') : s'.Inv := by
  cases action with
  | tick clock =>
    simp only [Cluster.step] at stepped
    split at stepped
    · rename_i moved
      cases stepped
      exact h.tick moved.1 moved.2
    · cases stepped
  | new node =>
    cases stepped
    exact h.setHeld (.unnamed (h.terms.readings node).1)
  | acquire id node =>
    simp only [Cluster.step] at stepped
    split at stepped
    · cases stepped
    · cases stepped
      refine h.setCall ?_ ?_
      · rintro _ _ ⟨⟩
        exact ⟨le_refl _, fun n expires seen => by cases seen⟩
      · rintro _ _ ⟨⟩ other n moment claim m expires ⟨⟩
  | renew id node =>
    simp only [Cluster.step] at stepped
    split at stepped
    · cases stepped
    · cases stepped
      obtain ⟨held_fits, next_fits⟩ := h.renew rfl
      refine (h.setHeld held_fits).continues ?_
      intro call same
      obtain ⟨fits, spares⟩ := next_fits call same
      exact ⟨fits.grow (.setHeld s node _), fun other n moment claim =>
        spares other n moment ⟨claim.stands, claim.later, claim.spared⟩⟩
  | serve id =>
    simp only [Cluster.step, Option.bind_eq_bind, Option.bind_eq_some_iff, Option.pure_def,
      Option.some_inj] at stepped
    obtain ⟨⟨node, call⟩, pending, ⟨served, next⟩, serves, rfl⟩ := stepped
    obtain ⟨kept, fits⟩ := h.serve pending serves
    exact kept.continues fits
  | unheard id =>
    simp only [Cluster.step, Option.bind_eq_bind, Option.bind_eq_some_iff, Option.pure_def,
      Option.some_inj] at stepped
    obtain ⟨⟨node, call⟩, pending, ⟨served, next⟩, serves, rfl⟩ := stepped
    exact (h.serve pending serves).1
  | finish id =>
    simp only [Cluster.step, Option.bind_eq_bind, Option.bind_eq_some_iff, Option.pure_def,
      Option.some_inj] at stepped
    obtain ⟨⟨node, call⟩, pending, ⟨held, answer⟩, finished, rfl⟩ := stepped
    exact (h.setHeld (h.finish pending finished)).dropCall id
  | abandon id =>
    cases stepped
    exact h.dropCall id

theorem exclusive (h : s.Inv) {a b : Node} (ha : s.isHeld a) (hb : s.isHeld b) : a = b := by
  obtain ⟨m, mine⟩ := (h.held a).valid.resolve_left (not_le.mpr ha)
  obtain ⟨n, yours⟩ := (h.held b).valid.resolve_left (not_le.mpr hb)
  have older : ∀ {a b : Node} {m n : Nat}, s.isHeld a → s.isHeld b →
      Claim s a m (s.held a).validUntil → Claim s b n (s.held b).validUntil → ¬ m < n := by
    intro a b m n ha hb mine yours lt
    obtain ⟨expires, stands, reached⟩ := yours.stands
    have wire := (h.terms.stands_le stands).trans (saturatingAdd_le _ _)
    unfold Cluster.isHeld at ha hb
    obtain passed | ⟨stopped, -⟩ := mine.later n b expires lt stands <;> omega
  obtain rfl : m = n := Nat.le_antisymm (not_lt.mp (older hb ha yours mine))
    (not_lt.mp (older ha hb mine yours))
  obtain ⟨expires, stands, -⟩ := mine.stands
  exact (yours.le_expires stands).1

end Cluster.Inv

theorem Cluster.Inv.init (holder : Node → List UInt8) {clock : Node → Int}
    (readings : Readings clock) : ({ holder, clock } : Cluster Node).Inv where
  terms := ⟨readings, nofun, nofun, nofun⟩
  held node := .unnamed (readings node).1
  calls := nofun

/-- Whatever the calls, their requests and their answers did, and however the
clocks moved within the skew, no two nodes hold the lease at once. -/
theorem isHeld_unique [Fintype Node] [DecidableEq Node] (holder : Node → List UInt8)
    {clock : Node → Int} (readings : Readings clock) {actions : List (Action Node)}
    {s : Cluster Node} (ran : Steps.run Cluster.step { holder, clock } actions = some s)
    {a b : Node} (distinct : a ≠ b) : ¬ (s.isHeld a ∧ s.isHeld b) := by
  intro ⟨ha, hb⟩
  have inv : s.Inv := Steps.run_invariant Cluster.Inv (fun _ _ _ h stepped => h.step stepped)
    (Cluster.Inv.init holder readings) ran
  exact distinct (inv.exclusive ha hb)

/-- One node takes the lease and stops; the other waits it out and takes the next term. -/
def takeover : List (Action Bool) :=
  [.acquire 0 false, .serve 0, .serve 0, .finish 0, .acquire 1 true, .serve 1, .serve 1,
    .tick fun _ => 11000, .acquire 1 true, .serve 1, .serve 1, .serve 1, .finish 1]

theorem isHeld_unique_takeover : ∃ s,
    Steps.run Cluster.step { holder := fun _ => [], clock := fun _ => 0 } takeover = some s ∧
      s.isHeld true ∧ ¬ (s.isHeld false ∧ s.isHeld true) := by
  refine ⟨_, rfl, by decide +kernel, ?_⟩
  exact @isHeld_unique Bool _ _ (fun _ => []) (fun _ => 0) (by decide +kernel) takeover _ rfl
    false true (by decide)

end Oqueue.Lease
