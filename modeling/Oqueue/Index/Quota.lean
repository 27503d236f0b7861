import Oqueue.Index.InPlace
import Oqueue.Index.Paging

/-!
# The ceiling is asked about what the page will leave

`checkQuota` predicts the entries a page leaves from the copies and the staged
commits, before either has landed. The prediction is what landing counts, so a
page is refused for the ceiling exactly when its result would be past it.
-/

namespace Oqueue

open Checked Tiling PartitionIndex

namespace IndexState

def residents (s : IndexState) : Nat := Table.total (fun p => p.tiers.total) s.partitions

theorem total_tiersOf (partitions : Finmap fun _ : PartitionKey => PartitionIndex) :
    (Tiers.of partitions).total = Table.total (fun p => p.tiers.total) partitions := by
  unfold Tiers.of Tiers.total Table.total
  rw [Multiset.sum_map_add, Multiset.sum_map_add]

theorem Exact.total {s : IndexState} (exact : s.Exact) : s.tiers.total = s.residents := by
  rw [exact, total_tiersOf]
  rfl

theorem total_push (p : PartitionIndex) (entry : TailEntry) :
    (p.push entry).tiers.total = p.tiers.total + 1 := by
  rcases p.push_cases entry with ⟨-, h⟩ | ⟨evicted, rest, -, htail, h⟩
  · simp only [h, PartitionIndex.tiers, Tiers.total, List.length_append, List.length_singleton]
    omega
  · have lengths := congrArg List.length htail
    simp only [List.length_append, List.length_cons, List.length_nil] at lengths
    simp only [h, PartitionIndex.tiers, Tiers.total, List.length_append, List.length_singleton]
    omega

theorem total_landSpan (slot : PartitionIndex) (span : StagedSpan) :
    (landSpan slot span).tiers.total = slot.tiers.total + span.entries.length := by
  have pushes : ∀ (entries : List TailEntry) (p : PartitionIndex),
      (entries.foldl push p).tiers.total = p.tiers.total + entries.length := by
    intro entries
    induction entries with
    | nil => exact fun p => rfl
    | cons entry rest ih =>
      intro p
      rw [List.foldl_cons, ih, total_push, List.length_cons]
      omega
  exact pushes _ _

theorem residents_install (s : IndexState) (key : PartitionKey) (slot : PartitionIndex) :
    ((s.install key slot).residents : Int) = s.residents + (slot.tiers.total -
      ((s.partition key).elim 0 fun held => held.tiers.total : Nat)) := by
  have trade := Table.total_insert (fun p => p.tiers.total) s.partitions key slot
  change ((Table.total (fun p => p.tiers.total) (s.partitions.insert key slot) : Nat) : Int) =
    (Table.total (fun p => p.tiers.total) s.partitions : Nat) + _
  unfold partition
  omega

/-- The staged loop adds one entry for each it pushes, and leaves projected partitions alone. -/
theorem residents_spans (projected : Projected)
    (l : List (Sigma fun _ : PartitionKey => StagedSpan)) (s : IndexState) :
    ((l.foldl (fun (s : IndexState) e => if e.1 ∈ projected then s
        else s.install e.1 (landSpan ((s.partition e.1).getD {}) e.2)) s).residents : Int) =
      s.residents + (((l.filter fun e => decide (e.1 ∉ projected)).map
        fun e => (⟨e.1, e.2.entries.length⟩ : Contribution)).map Contribution.delta).sum := by
  induction l generalizing s with
  | nil => simp
  | cons e rest ih =>
    rw [List.foldl_cons, ih]
    by_cases held : e.1 ∈ projected
    · simp [held]
    · have grown := residents_install s e.1 (landSpan ((s.partition e.1).getD {}) e.2)
      have pushed := total_landSpan ((s.partition e.1).getD {}) e.2
      have old : (s.partition e.1).elim 0 (fun held => held.tiers.total) =
          ((s.partition e.1).getD {}).tiers.total := by
        cases s.partition e.1 <;> rfl
      simp only [if_neg held, grown, pushed, old]
      simp only [held, not_false_eq_true, decide_true, List.filter_cons_of_pos, List.map_cons,
        List.sum_cons]
      push_cast
      ring

theorem partition_install (s : IndexState) (key other : PartitionKey) (slot : PartitionIndex) :
    (s.install key slot).partition other = if other = key then some slot else s.partition other :=
  Table.lookup_insert_eq _ _ _ _

/-- The projected loop trades each partition's count for its copy's. -/
theorem residents_slots {self : IndexState}
    (l : List (Sigma fun _ : PartitionKey => PartitionIndex)) (nodup : l.NodupKeys)
    (s : IndexState) (same : ∀ e ∈ l, s.partition e.1 = self.partition e.1) :
    ((l.foldl (fun (s : IndexState) e => s.install e.1 e.2) s).residents : Int) =
      s.residents + ((l.map fun e => (⟨e.1, (e.2.tiers.total : Int) -
        ((self.partition e.1).elim 0 fun held => held.tiers.total : Nat)⟩ : Contribution)).map
          Contribution.delta).sum := by
  induction l generalizing s with
  | nil => simp
  | cons e rest ih =>
    obtain ⟨fresh, nodup⟩ := List.nodupKeys_cons.mp nodup
    have later : ∀ x ∈ rest, (s.install e.1 e.2).partition x.1 = self.partition x.1 := by
      intro x hx
      rw [partition_install, if_neg]
      · exact same x (List.mem_cons_of_mem _ hx)
      · intro eq
        exact fresh (eq ▸ List.mem_keys_of_mem hx)
    have grown := residents_install s e.1 e.2
    rw [same e (List.mem_cons_self ..)] at grown
    rw [List.foldl_cons, ih nodup _ later, grown, List.map_cons, List.map_cons, List.sum_cons]
    ring

/-- Landing moves the count by the contributions the ceiling was asked about. -/
theorem residents_land (s : IndexState) (staged : StagedSpans) (projected : Projected) :
    ((s.land staged projected).residents : Int) =
      s.residents + ((s.contributions staged projected).map Contribution.delta).sum := by
  unfold land
  have untouched : ∀ (l : List (Sigma fun _ : PartitionKey => StagedSpan)) (t : IndexState),
      ∀ e ∈ projected.entries, (l.foldl (fun (s : IndexState) e => if e.1 ∈ projected then s
        else s.install e.1 (landSpan ((s.partition e.1).getD {}) e.2)) t).partition e.1 =
          t.partition e.1 := by
    intro l
    induction l with
    | nil => exact fun _ _ _ => rfl
    | cons span rest ih =>
      intro t e he
      rw [List.foldl_cons, ih _ e he]
      split
      · rfl
      · rename_i absent
        rw [partition_install, if_neg]
        intro eq
        exact absent (eq ▸ List.mem_keys_of_mem he)
  dsimp only
  rw [residents_slots projected.entries projected.nodupKeys _ (untouched staged.entries s),
    residents_spans]
  simp only [contributions, List.map_append, List.sum_append]
  ring

/-- The ceiling is asked about the count the landing leaves. -/
theorem Exact.checkQuota_eq {s : IndexState} (exact : s.Exact) (staged : StagedSpans)
    (projected : Projected) :
    (s.checkQuota staged projected = .ok () ↔
      ∀ quota, s.quota = some quota → (s.land staged projected).residents ≤ quota.ceiling) ∧
    ∀ quota, s.quota = some quota → quota.ceiling < (s.land staged projected).residents →
      ∃ topic partition, s.checkQuota staged projected =
        .error (.indexQuotaExceeded topic partition (s.land staged projected).residents
          quota.ceiling) := by
  have landing := residents_land s staged projected
  have held := exact.total
  unfold checkQuota
  cases hquota : s.quota with
  | none => simp
  | some quota =>
    have predicted : ((s.tiers.total : Int) +
        ((s.contributions staged projected).map Contribution.delta).sum).toNat =
          (s.land staged projected).residents := by
      rw [held, ← landing]
      exact Int.toNat_natCast _
    dsimp only
    rw [predicted]
    by_cases past : quota.ceiling < (s.land staged projected).residents
    · have crosses : quota.wouldCross (s.land staged projected).residents = true := by
        simpa [IndexQuota.wouldCross] using past
      simp only [crosses, Bool.not_true, Bool.false_eq_true, if_false, reduceCtorEq, false_iff]
      constructor
      · intro all
        exact absurd (all quota rfl) (Nat.not_le.mpr past)
      · rintro _ ⟨⟩ -
        exact ⟨_, _, rfl⟩
    · have stays : quota.wouldCross (s.land staged projected).residents = false := by
        simpa [IndexQuota.wouldCross] using past
      simp only [stays, Bool.not_false, if_true, true_iff]
      constructor
      · rintro _ ⟨⟩
        exact Nat.not_lt.mp past
      · rintro _ ⟨⟩ crossed
        exact absurd crossed past

def unbounded (s : IndexState) : IndexState := { s with quota := none }

theorem land_unbounded (s : IndexState) (staged : StagedSpans) (projected : Projected) :
    s.unbounded.land staged projected = (s.land staged projected).unbounded := by
  have slots : ∀ (l : List (Sigma fun _ : PartitionKey => PartitionIndex)) (s : IndexState),
      l.foldl (fun (s : IndexState) e => s.install e.1 e.2) s.unbounded =
        (l.foldl (fun (s : IndexState) e => s.install e.1 e.2) s).unbounded := by
    intro l
    induction l with
    | nil => exact fun s => rfl
    | cons e rest ih => exact fun s => ih (s.install e.1 e.2)
  have spans : ∀ (l : List (Sigma fun _ : PartitionKey => StagedSpan)) (s : IndexState),
      l.foldl (fun (s : IndexState) e => if e.1 ∈ projected then s
        else s.install e.1 (landSpan ((s.partition e.1).getD {}) e.2)) s.unbounded =
        (l.foldl (fun (s : IndexState) e => if e.1 ∈ projected then s
          else s.install e.1 (landSpan ((s.partition e.1).getD {}) e.2)) s).unbounded := by
    intro l
    induction l with
    | nil => exact fun s => rfl
    | cons e rest ih =>
      intro s
      rw [List.foldl_cons, List.foldl_cons, ← ih]
      congr 1
      split <;> rfl
  unfold land
  dsimp only
  rw [spans, slots]

theorem landed_unbounded (s : IndexState) (σ : Scratch) :
    s.unbounded.landed σ = (s.landed σ).unbounded := by
  unfold landed
  rw [land_unbounded]
  rfl

theorem apply_of_loop {s : IndexState} {entries : List MetadataEntry} {σ : Scratch}
    (loop : entries.foldlM (Scratch.step s) s.scratchInit = .ok σ) :
    s.apply entries = (s.checkQuota σ.staged (settled σ)).map fun _ => s.landed σ := by
  have valid : σ.Valid s := foldlM_invariant (Scratch.Valid s)
    (fun _ _ _ _ valid hstep => valid.step hstep) (Scratch.Valid.init s) loop
  obtain ⟨batch, hread, hstaged, hproj⟩ := (twoPass_iff s entries σ).mpr loop
  have hsettled := valid.settle_ok
  rw [← hstaged] at hsettled
  unfold apply project
  rw [hread]
  dsimp only [bind_ok]
  rw [hproj]
  dsimp only [bind_ok]
  rw [hsettled]
  rw [hstaged]
  change (s.checkQuota σ.staged (settled σ) >>= fun _ => pure (s.landed σ)) = _
  cases s.checkQuota σ.staged (settled σ) <;> rfl

/-- A page accepted but for the ceiling is refused for it exactly when what it
would leave is past it, and is otherwise accepted as it would have been. -/
theorem Exact.apply_under_quota {s t : IndexState} (exact : s.Exact)
    {entries : List MetadataEntry} (acceptable : s.unbounded.apply entries = .ok t)
    {quota : IndexQuota} (held : s.quota = some quota) :
    (quota.ceiling < t.residents → ∃ topic partition, s.apply entries =
      .error (.indexQuotaExceeded topic partition t.residents quota.ceiling)) ∧
    (t.residents ≤ quota.ceiling → s.apply entries = .ok { t with quota := s.quota }) := by
  obtain ⟨σ, loop, -, rfl⟩ := apply_eq_ok.mp acceptable
  have page := apply_of_loop (show entries.foldlM (Scratch.step s) s.scratchInit = .ok σ from loop)
  have asked := exact.checkQuota_eq σ.staged (settled σ)
  have count : (s.unbounded.landed σ).residents = (s.land σ.staged (settled σ)).residents := by
    rw [landed_unbounded]
    rfl
  rw [page, count]
  constructor
  · intro past
    obtain ⟨topic, partition, refused⟩ := asked.2 quota held past
    exact ⟨topic, partition, by rw [refused]; rfl⟩
  · intro inside
    have accepted : s.checkQuota σ.staged (settled σ) = .ok () := by
      apply asked.1.mpr
      intro quota' held'
      rw [held] at held'
      cases held'
      exact inside
    have same : s.landed σ = { s.unbounded.landed σ with quota := s.quota } := by
      rw [landed_unbounded]
      exact IndexState.ext rfl rfl rfl (quota_landed s σ) rfl
    rw [accepted, ← same]
    rfl

theorem Exact.apply_residents {s t : IndexState} (exact : s.Exact) {entries : List MetadataEntry}
    (accepted : s.apply entries = .ok t) {quota : IndexQuota} (held : s.quota = some quota) :
    t.residents ≤ quota.ceiling := by
  obtain ⟨σ, -, under, rfl⟩ := apply_eq_ok.mp accepted
  exact (exact.checkQuota_eq σ.staged (settled σ)).1.mp under quota held

/-- What the owner of an index may do to it. -/
inductive Call where
  | apply (page : List MetadataEntry)
  | clear

def call (s : IndexState) : Call → IndexState
  | .apply page => ((applyInPlace page).on s).2
  | .clear => s.clear

def calls (s : IndexState) (run : List Call) : IndexState := run.foldl call s

theorem call_cases (s : IndexState) (c : Call) :
    (∃ page, c = .apply page ∧ s.apply page = .ok (s.call c)) ∨
    (∃ page, c = .apply page ∧ s.call c = s) ∨ (c = .clear ∧ s.call c = s.clear) := by
  cases c with
  | clear => exact .inr (.inr ⟨rfl, rfl⟩)
  | apply page =>
    have ran := on_applyInPlace page s
    have left : s.call (.apply page) = ((applyInPlace page).on s).2 := rfl
    cases h : s.apply page with
    | ok t =>
      rw [h] at ran
      rw [ran] at left
      exact .inl ⟨page, rfl, by rw [left, h]⟩
    | error e =>
      rw [h] at ran
      rw [ran] at left
      exact .inr (.inl ⟨page, rfl, left⟩)

theorem calls_invariant (quota : Option IndexQuota) (P : IndexState → Prop)
    (fresh : P { quota := quota })
    (keeps : ∀ s t page, s.quota = quota → P s → s.apply page = .ok t → P t) (run : List Call) :
    (calls { quota := quota } run).quota = quota ∧ P (calls { quota := quota } run) := by
  refine List.foldlRecOn (motive := fun s : IndexState => s.quota = quota ∧ P s) run call
    ⟨rfl, fresh⟩ ?_
  rintro s ⟨same, held⟩ c -
  rcases call_cases s c with ⟨page, -, accepted⟩ | ⟨page, -, stays⟩ | ⟨-, emptied⟩
  · exact ⟨(quota_apply accepted).trans same, keeps s _ page same held accepted⟩
  · rw [stays]
    exact ⟨same, held⟩
  · rw [emptied]
    refine ⟨same, ?_⟩
    rw [← same] at fresh
    exact fresh

/-- The counters of every reachable index are the counts; and under a ceiling a page
that is otherwise accepted is refused exactly when what it leaves would be past it,
so no reachable index is. -/
theorem quota_exact (quota : Option IndexQuota) (run : List Call) :
    (calls { quota := quota } run).tiers = Tiers.of (calls { quota := quota } run).partitions ∧
    ∀ ceiling, quota = some ceiling →
      (Tiers.of (calls { quota := quota } run).partitions).total ≤ ceiling.ceiling ∧
      ∀ page t, (calls { quota := quota } run).unbounded.apply page = .ok t →
        ((∃ topic partition wouldBe, (calls { quota := quota } run).apply page =
            .error (.indexQuotaExceeded topic partition wouldBe ceiling.ceiling)) ↔
          ceiling.ceiling < (Tiers.of t.partitions).total) ∧
        ((Tiers.of t.partitions).total ≤ ceiling.ceiling →
          (calls { quota := quota } run).apply page = .ok { t with quota := quota }) := by
  have reached := calls_invariant quota (fun s => s.Sound ∧
      ∀ ceiling, quota = some ceiling → s.residents ≤ ceiling.ceiling)
    ⟨Sound.empty quota, fun _ _ => Nat.zero_le _⟩ ?_ run
  · obtain ⟨same, sound, under⟩ := reached
    refine ⟨sound.exact, ?_⟩
    intro ceiling held
    rw [total_tiersOf]
    refine ⟨under ceiling held, ?_⟩
    intro page t acceptable
    rw [total_tiersOf]
    have asked := sound.exact.apply_under_quota acceptable (same.trans held)
    refine ⟨⟨?_, ?_⟩, ?_⟩
    · rintro ⟨topic, partition, wouldBe, refused⟩
      by_contra inside
      have accepted := asked.2 (Nat.not_lt.mp inside)
      rw [refused] at accepted
      cases accepted
    · intro past
      obtain ⟨topic, partition, refused⟩ := asked.1 past
      exact ⟨topic, partition, _, refused⟩
    · intro inside
      rw [asked.2 inside, same]
  · rintro s t page same ⟨sound, -⟩ accepted
    exact ⟨sound.apply accepted,
      fun ceiling held => sound.exact.apply_residents accepted (same.trans held)⟩

end IndexState

end Oqueue
