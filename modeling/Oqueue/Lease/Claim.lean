import Oqueue.Lease.Lease

/-!
# What a node may rely on

A node's claim on a term up to a moment: the term's object is its own and
records an expiry no earlier, and whatever a challenger has read, or written,
it cannot act before that moment has passed on the node's own clock. A
challenger whose clock has stopped at the greatest time is let through: it can
never hold what it takes.
-/

namespace Oqueue.Lease

open Bytes

theorem saturatingAdd_eq (a b : Int) :
    saturatingAdd a b = max (-9223372036854775808) (min 9223372036854775807 (a + b)) := by
  norm_num [saturatingAdd, saturate]

theorem saturatingSub_eq (a b : Int) :
    saturatingSub a b = max (-9223372036854775808) (min 9223372036854775807 (a - b)) := by
  norm_num [saturatingSub, saturate]

theorem i64Max_eq : (i64Max : Int) = 9223372036854775807 := by norm_num [i64Max]

theorem saturatingAdd_le (a b : Int) : saturatingAdd a b ≤ i64Max := by
  rw [saturatingAdd_eq, i64Max_eq]
  omega

theorem saturatingAdd_mono {a a' : Int} (h : a ≤ a') (b : Int) :
    saturatingAdd a b ≤ saturatingAdd a' b := by
  rw [saturatingAdd_eq, saturatingAdd_eq]
  omega

/-- What is written as a lease's expiry is what is read back. -/
theorem expiry_body (holder : List UInt8) (started : Int) :
    expiry (body holder (saturatingAdd started leaseTtlMs)) =
      .ok (saturatingAdd started leaseTtlMs) := by
  have low := le_max_left (-(2 ^ 63) : Int) (min (2 ^ 63 - 1) (started + leaseTtlMs))
  have high := saturatingAdd_le started leaseTtlMs
  set expires := saturatingAdd started leaseTtlMs with spelled
  have kept : castSigned 64 (castUnsigned 64 expires) = expires := by
    refine castSigned_castUnsigned (by norm_num) low ?_
    rw [i64Max_eq] at high
    norm_num
    omega
  have small : castUnsigned 64 expires % 256 ^ 8 = castUnsigned 64 expires := by
    have positive : (0 : Int) < 2 ^ 64 := by norm_num
    have below := Int.emod_lt_of_pos expires positive
    have nonneg := Int.emod_nonneg expires positive.ne'
    refine Nat.mod_eq_of_lt ?_
    unfold castUnsigned
    omega
  have bytes : ((body holder expires).drop 4).take 8 = toBeBytes 8 (castUnsigned 64 expires) := by
    simp [body, magic]
  rw [expiry, if_neg (by simp [body, magic]), bytes, if_neg (by simp), fromBeBytes_toBeBytes,
    small, kept]

variable {Node : Type}

/-- Term `n` is there, written by `node`, and lasts until `expires`. -/
def Cluster.Stands (s : Cluster Node) (n : Nat) (node : Node) (expires : Int) : Prop :=
  ∃ object, s.objects n = some object ∧ object.writer = node ∧ expiry object.body = .ok expires

/-- A challenger at `call` will not act on what it has read while `node` may
still rely on term `n` until `moment`. -/
def Call.Spares (clock : Node → Int) (node : Node) (n : Nat) (moment : Int) : Call → Prop
  | .searching started search => ∀ m expires, search.observed = some (m, expires) →
    (m = n → moment ≤ expires ∨ moment ≤ clock node ∨
      started < saturatingAdd expires leaseSkewMs) ∧
    (n < m → moment ≤ clock node ∨ expires = i64Max)
  | .claiming started next => n < next → moment ≤ clock node ∨ started = i64Max
  | _ => True

structure Claim (s : Cluster Node) (node : Node) (n : Nat) (moment : Int) : Prop where
  stands : ∃ expires, s.Stands n node expires ∧ moment ≤ expires
  later : ∀ m other expires, n < m → s.Stands m other expires →
    moment ≤ s.clock node ∨ (s.clock other = i64Max ∧ expires = i64Max)
  spared : ∀ id other call, s.calls id = some (other, call) →
    call.Spares s.clock node n moment

theorem Cluster.Stands.unique {s : Cluster Node} {n : Nat} {a b : Node} {e f : Int}
    (ha : s.Stands n a e) (hb : s.Stands n b f) : a = b ∧ e = f := by
  obtain ⟨o, ho, rfl, he⟩ := ha
  obtain ⟨o', ho', rfl, hf⟩ := hb
  rw [ho, Option.some_inj] at ho'
  subst ho'
  rw [he, Except.ok.injEq] at hf
  exact ⟨rfl, hf⟩

theorem Call.Spares.later {clock clock' : Node → Int} {node : Node} {n : Nat} {moment : Int}
    {call : Call} (h : call.Spares clock node n moment) (le : clock node ≤ clock' node) :
    call.Spares clock' node n moment := by
  cases call with
  | searching started search =>
    intro m expires seen
    obtain ⟨same, beyond⟩ := h m expires seen
    exact ⟨fun eq => (same eq).imp_right (.imp_left fun h => h.trans le),
      fun lt => (beyond lt).imp_left fun h => h.trans le⟩
  | claiming started next => exact fun lt => (h lt).imp_left fun h => h.trans le
  | _ => trivial

/-- Who held a term until a later moment cannot be told from who held it until
an earlier one, as long as the earlier has not passed by more than the skew. -/
theorem Call.Spares.extend {clock : Node → Int} (readings : Readings clock) {node other : Node}
    {n : Nat} {deadline moment : Int} {call : Call}
    (h : call.Spares clock node n deadline) (wire : deadline ≤ i64Max)
    (intime : clock node < saturatingSub deadline leaseSkewMs)
    (early : ∀ started search, call = .searching started search → started ≤ clock other) :
    call.Spares clock node n moment := by
  have skew := (readings other).2.2 node
  have nonneg := (readings node).1
  simp only [saturatingSub_eq, i64Max_eq, leaseSkewMs] at *
  cases call with
  | searching started search =>
    intro m expires seen
    have begun := early started search rfl
    obtain ⟨same, beyond⟩ := h m expires seen
    simp only [saturatingAdd_eq, i64Max_eq, leaseSkewMs] at *
    refine ⟨fun eq => .inr (.inr ?_), fun lt => .inr ?_⟩
    · have := same eq
      omega
    · have := beyond lt
      omega
  | claiming started next =>
    intro lt
    have := h lt
    simp only [i64Max_eq] at *
    omega
  | _ => trivial

namespace Cluster

/-- What a conditional write that went through leaves behind. -/
def written (s : Cluster Node) (writer : Node) (term : Nat) (expires : Int) : Cluster Node :=
  { s with
    objects := Function.update s.objects term
      (some ⟨Lease.body (s.holder writer) expires, s.nextToken, writer⟩)
    nextToken := s.nextToken + 1 }

theorem put_eq_some {s s' : Cluster Node} {writer : Node} {term : Nat} {expires : Int}
    {precondition : Precondition} :
    s.put writer term expires precondition = some s' ↔
      precondition.met (s.objects term) ∧ s' = s.written writer term expires := by
  unfold put written
  split
  · rename_i met
    rw [Option.some_inj]
    exact ⟨fun same => ⟨met, same.symm⟩, fun same => same.2.symm⟩
  · rename_i unmet
    exact ⟨fun absurd => by simp at absurd, fun met => absurd met.1 unmet⟩

theorem objects_written (s : Cluster Node) (writer : Node) (term : Nat) (expires : Int) (n : Nat) :
    (s.written writer term expires).objects n =
      if n = term then some ⟨Lease.body (s.holder writer) expires, s.nextToken, writer⟩
      else s.objects n := by
  simp [written, Function.update_apply]

@[simp] theorem clock_written (s : Cluster Node) (writer : Node) (term : Nat) (expires : Int) :
    (s.written writer term expires).clock = s.clock := rfl

@[simp] theorem calls_written (s : Cluster Node) (writer : Node) (term : Nat) (expires : Int) :
    (s.written writer term expires).calls = s.calls := rfl

theorem stands_written {s : Cluster Node} {writer node : Node} {term n : Nat} {started e : Int} :
    (s.written writer term (saturatingAdd started leaseTtlMs)).Stands n node e ↔
      if n = term then node = writer ∧ e = saturatingAdd started leaseTtlMs
      else s.Stands n node e := by
  unfold Stands
  rw [objects_written]
  split
  · simp [expiry_body, eq_comm]
  · rfl

end Cluster

namespace Claim

variable {s : Cluster Node} {node : Node} {n : Nat} {moment : Int}

theorem tick (h : Claim s node n moment) {clock : Node → Int} (readings : Readings clock)
    (forward : ∀ a, s.clock a ≤ clock a) : Claim { s with clock } node n moment where
  stands := h.stands
  later := by
    intro m other expires lt stands
    obtain passed | ⟨stopped, last⟩ := h.later m other expires lt stands
    · exact .inl (passed.trans (forward node))
    · refine .inr ⟨le_antisymm (readings other).2.1 ?_, last⟩
      rw [← stopped]
      exact forward other
  spared id other call pending := (h.spared id other call pending).later (forward node)

theorem setCall (h : Claim s node n moment) {id : Nat} {call : Option (Node × Call)}
    (spares : ∀ other c, call = some (other, c) → c.Spares s.clock node n moment) :
    Claim (s.setCall id call) node n moment where
  stands := h.stands
  later := h.later
  spared := by
    intro id' other c pending
    simp only [Cluster.setCall, Function.update_apply] at pending
    split at pending
    · exact spares other c pending
    · exact h.spared id' other c pending

/-- A write of another's term after this one spares a claim only if the claim has
passed, or the writer's clock has stopped. -/
theorem written (h : Claim s node n moment) {writer : Node} {term : Nat} {started : Int}
    (own : term = n → writer = node ∧ moment ≤ saturatingAdd started leaseTtlMs)
    (beyond : n < term → moment ≤ s.clock node ∨
      (s.clock writer = i64Max ∧ saturatingAdd started leaseTtlMs = i64Max)) :
    Claim (s.written writer term (saturatingAdd started leaseTtlMs)) node n moment where
  stands := by
    obtain ⟨expires, stands, le⟩ := h.stands
    by_cases same : n = term
    · obtain ⟨rfl, le'⟩ := own same.symm
      exact ⟨_, Cluster.stands_written.mpr (by simp [same]), le'⟩
    · exact ⟨expires, Cluster.stands_written.mpr (by simpa [same] using stands), le⟩
  later := by
    intro m other expires lt stands
    rw [Cluster.stands_written] at stands
    split at stands
    · rename_i same
      obtain ⟨rfl, rfl⟩ := stands
      exact beyond (same ▸ lt)
    · exact h.later m other expires lt stands
  spared := h.spared

theorem le_expires (h : Claim s node n moment) {other : Node} {expires : Int}
    (stands : s.Stands n other expires) : other = node ∧ moment ≤ expires := by
  obtain ⟨e, hstands, le⟩ := h.stands
  obtain ⟨rfl, rfl⟩ := stands.unique hstands
  exact ⟨rfl, le⟩

end Claim

end Oqueue.Lease
