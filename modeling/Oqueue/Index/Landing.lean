import Oqueue.Index.Scratch

/-!
# What a page leaves behind

Between two entries a partition is the copy the effects have worked on, with the
first `taken` of its staged commits already pushed. Landing pushes the rest, so
a partition after the page is one expression in its slot, its staged commits
and that count.
-/

namespace Oqueue

open Checked Tiling PartitionIndex

namespace IndexState

/-- The copy of a partition the effects so far have worked on. -/
def slotOf (s : IndexState) (proj : Projection) (key : PartitionKey) : PartitionIndex :=
  (proj.projected.lookup key).getD ((s.partition key).getD {})

def takenOf (proj : Projection) (key : PartitionKey) : Nat := (proj.taken.lookup key).getD 0

def stagedRefs (staged : StagedSpans) (key : PartitionKey) : List ObjectRef :=
  ((staged.lookup key).elim [] StagedSpan.entries).map TailEntry.reference

/-- What the interleaved loop keeps true of its scratch. -/
structure Scratch.Valid (s : IndexState) (σ : Scratch) : Prop where
  continuous : s.Continuous σ.staged
  taken_le : ∀ key, takenOf σ.proj key ≤ precedes σ.staged key
  slots : ∀ key, RefTiles ((stagedRefs σ.staged key).take (takenOf σ.proj key)) (s.endOffset key)
    (s.slotOf σ.proj key).endOffset
  untouched : ∀ key, σ.proj.projected.lookup key = none → σ.proj.taken.lookup key = none

def caught (staged : Option StagedSpan) (taken : Nat) (slot : PartitionIndex) : PartitionIndex :=
  staged.elim slot fun span =>
    { (span.entries.drop taken).foldl push slot with endOffset := span.stop }

/-- A slot as the page leaves it. -/
def finish (staged : Option StagedSpan) (taken : Nat) (slot : PartitionIndex) : PartitionIndex :=
  staged.elim slot fun span => landSpan slot { span with entries := span.entries.drop taken }

theorem finish_eq (staged : Option StagedSpan) (taken : Nat) (slot : PartitionIndex) :
    finish staged taken slot = staged.elim (caught staged taken slot) fun span =>
      (caught staged taken slot).observe span.when := by
  cases staged with
  | none => rfl
  | some span =>
    simp only [finish, caught, Option.elim_some, landSpan_eq, observe,
      (foldl_push_frame (span.entries.drop taken) slot).2.1]

theorem endOffset_slotOf_default (s : IndexState) (key : PartitionKey) :
    ((s.partition key).getD {}).endOffset = s.endOffset key := by
  unfold endOffset
  cases s.partition key <;> rfl

theorem Scratch.Valid.init (s : IndexState) : Scratch.Valid s s.scratchInit where
  continuous := Continuous.empty s
  taken_le := fun _ => Nat.zero_le _
  slots := fun key => (endOffset_slotOf_default s key).symm
  untouched := fun _ _ => rfl

theorem Scratch.Valid.rest_tiles {s : IndexState} {σ : Scratch} (valid : σ.Valid s)
    {key : PartitionKey} {span : StagedSpan} (held : σ.staged.lookup key = some span) :
    RefTiles ((span.entries.drop (takenOf σ.proj key)).map TailEntry.reference)
      (s.slotOf σ.proj key).endOffset span.stop := by
  have whole := (valid.continuous key span held).tiles
  have front := valid.slots key
  simp only [stagedRefs, held, Option.elim_some, ← List.map_take] at front
  rw [← List.take_append_drop (takenOf σ.proj key) span.entries, List.map_append] at whole
  obtain ⟨middle, hfront, hback⟩ := Tiles.append_iff.mp whole
  rwa [front.end_unique hfront]

theorem Scratch.Valid.catchUp_all {s : IndexState} {σ : Scratch} (valid : σ.Valid s)
    (key : PartitionKey) :
    catchUp (s.slotOf σ.proj key) (σ.staged.lookup key) (takenOf σ.proj key)
        (precedes σ.staged key) =
      .ok (caught (σ.staged.lookup key) (takenOf σ.proj key) (s.slotOf σ.proj key),
        precedes σ.staged key) := by
  have bound := valid.taken_le key
  cases held : σ.staged.lookup key with
  | none =>
    simp only [precedes, held, Option.elim_none] at bound ⊢
    simp [catchUp, caught, Nat.le_zero.mp bound]
  | some span =>
    have rest := valid.rest_tiles held
    simp only [precedes, held, Option.elim_some] at bound
    simp only [catchUp, caught, precedes, held, Option.elim_some, List.take_length]
    rw [pushEntries_eq_ok rest (valid.continuous key span held).fits, bind_ok,
      Nat.max_eq_right bound]
    rfl

theorem caught_endOffset {s : IndexState} {σ : Scratch} (valid : σ.Valid s) (key : PartitionKey) :
    (caught (σ.staged.lookup key) (takenOf σ.proj key) (s.slotOf σ.proj key)).endOffset =
      s.stagedEnd σ.staged key := by
  have start := valid.slots key
  have bound := valid.taken_le key
  unfold caught stagedEnd
  cases held : σ.staged.lookup key with
  | none =>
    simp only [stagedRefs, held, Option.elim_none, List.map_nil, List.take_nil] at start
    exact start.symm
  | some span => rfl

/-- An effect at the end of the scratch: everything before it is pushed, then it applies. -/
theorem Scratch.Valid.projectEffect_eq_ok {s : IndexState} {σ : Scratch} (valid : σ.Valid s)
    {key : PartitionKey} {effect : Effect} {proj : Projection} :
    s.projectEffect σ.staged σ.proj ⟨key, effect, precedes σ.staged key⟩ = .ok proj ↔
      ∃ slot changes, applyEffect (caught (σ.staged.lookup key) (takenOf σ.proj key)
          (s.slotOf σ.proj key)) key effect = .ok (slot, changes) ∧
        proj = {
          projected := σ.proj.projected.insert key slot
          changes := σ.proj.changes ++ changes
          taken := σ.proj.taken.insert key (precedes σ.staged key) } := by
  unfold projectEffect
  dsimp only
  have caughtUp := valid.catchUp_all key
  unfold slotOf takenOf at caughtUp
  rw [caughtUp, bind_ok, bind_eq_ok]
  constructor
  · rintro ⟨⟨slot, changes⟩, happly, h⟩
    cases h
    exact ⟨slot, changes, happly, rfl⟩
  · rintro ⟨slot, changes, happly, rfl⟩
    exact ⟨(slot, changes), happly, rfl⟩

theorem Scratch.Valid.stageAll {s : IndexState} {σ : Scratch} (valid : σ.Valid s)
    {staged : StagedSpans} {spans : List (ObjectKey × TimeSpan × CommittedSpan)}
    (h : s.stageAll σ.staged spans = .ok staged) (previous : Option Nat) :
    Scratch.Valid s ⟨previous, staged, σ.proj⟩ := by
  have grown := extends_stageAll h
  refine ⟨valid.continuous.stageAll h, fun key => le_trans (valid.taken_le key) (grown.precedes_le key),
    ?_, valid.untouched⟩
  intro key
  obtain ⟨more, hmore⟩ := grown key
  have bound := valid.taken_le key
  rw [precedes_eq] at bound
  have same : (stagedRefs staged key).take (takenOf σ.proj key) =
      (stagedRefs σ.staged key).take (takenOf σ.proj key) := by
    unfold stagedRefs
    rw [hmore, List.map_append, List.take_append_of_le_length]
    simpa using bound
  dsimp only
  rw [same]
  exact valid.slots key

theorem Scratch.Valid.step {s : IndexState} {σ σ' : Scratch} {entry : MetadataEntry}
    (valid : σ.Valid s) (h : σ.step s entry = .ok σ') : σ'.Valid s := by
  obtain ⟨-, -, hspans, heffect⟩ := Scratch.step_eq_ok.mp h
  obtain ⟨previous, staged, proj⟩ := σ'
  have staging := valid.stageAll hspans previous
  cases hkind : effectOf entry.record with
  | none =>
    simp only [hkind, Option.elim_none, Except.ok.injEq] at heffect
    subst heffect
    exact staging
  | some effect =>
    obtain ⟨key, effect⟩ := effect
    simp only [hkind, Option.elim_some] at heffect
    obtain ⟨slot, changes, happly, hproj⟩ := staging.projectEffect_eq_ok.mp heffect
    dsimp only at hspans staging happly hproj
    subst hproj
    have slotEnd : slot.endOffset = s.stagedEnd staged key :=
      (applyEffect_endOffset happly).trans (caught_endOffset staging key)
    refine ⟨staging.continuous, ?_, ?_, ?_⟩
    · intro key'
      have bound := staging.taken_le key'
      simp only [takenOf, Table.alist_lookup_insert_eq] at bound ⊢
      split
      · rename_i same
        subst same
        exact Nat.le_refl _
      · exact bound
    · intro key'
      have before := staging.slots key'
      simp only [takenOf, slotOf, Table.alist_lookup_insert_eq] at before ⊢
      split
      · rename_i same
        subst same
        simp only [Option.getD_some, slotEnd, stagedRefs, precedes_eq, ← List.map_take,
          List.take_length, stagedEnd]
        cases held : staged.lookup key' with
        | none => rfl
        | some span => exact (staging.continuous key' span held).tiles
      · exact before
    · intro key' hnone
      simp only [Table.alist_lookup_insert_eq] at hnone ⊢
      split at hnone
      · simp at hnone
      · rename_i other
        rw [if_neg other]
        exact staging.untouched key' hnone

/-- The projection with every partition's remaining commits pushed. -/
def settled (σ : Scratch) : Projected :=
  σ.proj.projected.entries.foldl (fun acc e => acc.insert e.1
    (finish (σ.staged.lookup e.1) (takenOf σ.proj e.1) e.2)) σ.proj.projected

def landed (s : IndexState) (σ : Scratch) : IndexState :=
  { s.land σ.staged (settled σ) with
    references := s.references.apply (σ.proj.changes ++ stagedChanges σ.staged)
    appliedUpto := σ.previous }

theorem lookup_settled (σ : Scratch) (key : PartitionKey) :
    (settled σ).lookup key = (σ.proj.projected.lookup key).map
      (finish (σ.staged.lookup key) (takenOf σ.proj key)) := by
  unfold settled
  rw [Table.alist_lookup_foldl_insert (fun e => finish (σ.staged.lookup e.1)
    (takenOf σ.proj e.1) e.2) _ σ.proj.projected.nodupKeys]
  change (σ.proj.projected.lookup key).elim _ _ = _
  cases held : σ.proj.projected.lookup key with
  | none => rfl
  | some slot => rfl

theorem Scratch.Valid.settle_ok {s : IndexState} {σ : Scratch} (valid : σ.Valid s) :
    σ.proj.projected.entries.foldlM (fun (acc : Projected) e =>
      (settleSlot σ.staged σ.proj.taken e).map fun slot => acc.insert e.1 slot)
        σ.proj.projected = .ok (settled σ) := by
  apply Table.foldlM_insert_ok
  rintro ⟨key, slot⟩ hmem
  have held : σ.proj.projected.lookup key = some slot := AList.mem_lookup_iff.mpr hmem
  have isSlot : s.slotOf σ.proj key = slot := by
    unfold slotOf
    rw [held]
    rfl
  have caughtUp := valid.catchUp_all key
  rw [isSlot] at caughtUp
  unfold takenOf at caughtUp
  unfold settleSlot
  dsimp only
  rw [caughtUp, bind_ok, finish_eq]
  cases hspan : σ.staged.lookup key with
  | none => rfl
  | some span => rfl

theorem lookup_land (s : IndexState) (staged : StagedSpans) (projected : Projected)
    (key : PartitionKey) :
    (s.land staged projected).partition key = (projected.lookup key).elim
      ((staged.lookup key).elim (s.partition key)
        fun span => some (landSpan ((s.partition key).getD {}) span)) some := by
  have spans := Table.lookup_foldl IndexState.partitions
    (fun (s : IndexState) (e : Sigma fun _ : PartitionKey => StagedSpan) =>
      if e.1 ∈ projected then s
      else s.install e.1 (landSpan ((s.partition e.1).getD {}) e.2))
    (fun key span held => if key ∈ projected then held
      else some (landSpan (held.getD {}) span))
    (by
      intro s e k
      split
      · split <;> rfl
      · simp only [install, Table.lookup_insert_eq, partition]
        split
        · rename_i same
          rw [same]
        · rfl)
    staged.entries staged.nodupKeys s key
  have slots := Table.lookup_foldl IndexState.partitions
    (fun (s : IndexState) (e : Sigma fun _ : PartitionKey => PartitionIndex) => s.install e.1 e.2)
    (fun _ slot _ => some slot)
    (by
      intro s e k
      exact Table.lookup_insert_eq _ _ _ _)
    projected.entries projected.nodupKeys
  unfold land
  dsimp only [partition] at spans slots ⊢
  rw [slots, spans]
  change (projected.lookup key).elim ((staged.lookup key).elim _ _) _ = _
  cases held : projected.lookup key with
  | some slot => rfl
  | none =>
    have absent : key ∉ projected := AList.lookup_eq_none.mp held
    simp only [Option.elim_none, if_neg absent]

theorem Scratch.Valid.partition_landed {s : IndexState} {σ : Scratch} (valid : σ.Valid s)
    (key : PartitionKey) :
    (s.landed σ).partition key =
      if σ.proj.projected.lookup key = none ∧ σ.staged.lookup key = none then s.partition key
      else some (finish (σ.staged.lookup key) (takenOf σ.proj key) (s.slotOf σ.proj key)) := by
  have lands : (s.landed σ).partition key = (s.land σ.staged (settled σ)).partition key := rfl
  rw [lands, lookup_land, lookup_settled]
  unfold slotOf
  cases held : σ.proj.projected.lookup key with
  | some slot => simp
  | none =>
    have zero : takenOf σ.proj key = 0 := by
      unfold takenOf
      rw [valid.untouched key held]
      rfl
    cases hspan : σ.staged.lookup key with
    | none => simp
    | some span => simp [zero, finish]

theorem Scratch.Valid.slot_landed {s : IndexState} {σ : Scratch} (valid : σ.Valid s)
    (key : PartitionKey) :
    ((s.landed σ).partition key).getD {} =
      finish (σ.staged.lookup key) (takenOf σ.proj key) (s.slotOf σ.proj key) := by
  rw [valid.partition_landed]
  split
  · rename_i neither
    rw [neither.2, slotOf, neither.1]
    rfl
  · rfl

theorem Scratch.Valid.endOffset_landed {s : IndexState} {σ : Scratch} (valid : σ.Valid s)
    (key : PartitionKey) : (s.landed σ).endOffset key = s.stagedEnd σ.staged key := by
  rw [← endOffset_slotOf_default, valid.slot_landed, ← caught_endOffset valid, finish_eq]
  cases σ.staged.lookup key <;> rfl

theorem apply_eq_ok {s t : IndexState} {entries : List MetadataEntry} :
    s.apply entries = .ok t ↔ ∃ σ, entries.foldlM (Scratch.step s) s.scratchInit = .ok σ ∧
      s.checkQuota σ.staged (settled σ) = .ok () ∧ t = s.landed σ := by
  have validOf : ∀ σ, entries.foldlM (Scratch.step s) s.scratchInit = .ok σ → σ.Valid s :=
    fun σ h => foldlM_invariant (Scratch.Valid s) (fun _ _ _ _ valid hstep => valid.step hstep)
      (Scratch.Valid.init s) h
  unfold apply project
  simp only [bind_eq_ok]
  constructor
  · rintro ⟨⟨previous, batch⟩, hread, ⟨projected, changes⟩, ⟨proj, hloop, table, hsettle, hpair⟩, _,
      hquota, h⟩
    have hloop' := (twoPass_iff s entries ⟨previous, batch.staged, proj⟩).mp
      ⟨batch, hread, rfl, hloop⟩
    have hsettled := (validOf _ hloop').settle_ok
    dsimp only at hsettled
    rw [hsettled] at hsettle
    cases hsettle
    cases hpair
    cases h
    exact ⟨_, hloop', hquota, rfl⟩
  · rintro ⟨σ, hloop, hquota, rfl⟩
    obtain ⟨batch, hread, hstaged, hproj⟩ := (twoPass_iff s entries σ).mpr hloop
    have hsettled := (validOf _ hloop).settle_ok
    rw [← hstaged] at hsettled hquota
    refine ⟨_, hread, _, ⟨_, hproj, _, hsettled, rfl⟩, (), hquota, ?_⟩
    unfold landed
    rw [hstaged]
    rfl

end IndexState

end Oqueue
