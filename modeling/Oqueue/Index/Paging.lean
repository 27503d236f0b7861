import Oqueue.Index.Sound

/-!
# A log folds the same however it is paged

A page followed by one entry leaves what the longer page leaves. The commits
staged by the page and those of the entry merge, an effect finds its partition
as the page would have left it, and the counts agree because no drop of the page
was cut short.
-/

namespace Oqueue

open Checked Tiling PartitionIndex

namespace IndexState

/-- A page's staged commits with a later entry's on top. -/
def joined (held : Option StagedSpan) (more : StagedSpan) : StagedSpan :=
  held.elim more fun span =>
    ⟨more.stop, span.entries ++ more.entries, span.when.widened more.when⟩

/-- `big` is what staging on top of `staged` gives where staging afresh gives `small`. -/
def Merges (staged small big : StagedSpans) : Prop :=
  ∀ key, big.lookup key = (small.lookup key).elim (staged.lookup key)
    fun more => some (joined (staged.lookup key) more)

theorem joined_extend_none (held : Option StagedSpan) (stop : Nat) (entry : TailEntry)
    (when : TimeSpan) :
    joined held (extend none stop entry when) = extend held stop entry when := by
  cases held with
  | none => rfl
  | some span => simp [joined, extend]

theorem joined_extend_some (held : Option StagedSpan) (more : StagedSpan) (stop : Nat)
    (entry : TailEntry) (when : TimeSpan) :
    joined held (extend (some more) stop entry when) =
      extend (some (joined held more)) stop entry when := by
  cases held with
  | none => rfl
  | some span => simp [joined, extend, TimeSpan.widened_assoc]

section
variable {s t : IndexState} {staged : StagedSpans}

theorem Merges.stagedEnd_eq (ends : ∀ key, t.endOffset key = s.stagedEnd staged key)
    {small big : StagedSpans} (merges : Merges staged small big) (key : PartitionKey) :
    s.stagedEnd big key = t.stagedEnd small key := by
  unfold stagedEnd
  rw [merges key]
  cases small.lookup key with
  | none => exact (ends key).symm
  | some more =>
    unfold joined
    cases staged.lookup key <;> rfl

theorem Merges.insert {small big : StagedSpans} (merges : Merges staged small big)
    (key : PartitionKey) (stop : Nat) (entry : TailEntry) (when : TimeSpan) :
    Merges staged (small.insert key (extend (small.lookup key) stop entry when))
      (big.insert key (extend (big.lookup key) stop entry when)) := by
  intro key'
  rw [Table.alist_lookup_insert_eq, Table.alist_lookup_insert_eq]
  split
  · rename_i same
    subst same
    rw [merges key']
    cases small.lookup key' with
    | none => simp [joined_extend_none]
    | some more => simp [joined_extend_some]
  · exact merges key'

theorem Merges.stageSpan (ends : ∀ key, t.endOffset key = s.stagedEnd staged key)
    {small big big' : StagedSpans} (merges : Merges staged small big) {object : ObjectKey}
    {when : TimeSpan} {span : CommittedSpan} (h : s.stageSpan big object when span = .ok big') :
    ∃ small', t.stageSpan small object when span = .ok small' ∧ Merges staged small' big' := by
  obtain ⟨nonzero, fits, rfl⟩ := stageSpan_eq_ok.mp h
  rw [merges.stagedEnd_eq ends] at fits ⊢
  exact ⟨_, stageSpan_eq_ok.mpr ⟨nonzero, fits, rfl⟩, merges.insert _ _ _ _⟩

theorem Merges.stageSpan_back (ends : ∀ key, t.endOffset key = s.stagedEnd staged key)
    {small small' big : StagedSpans} (merges : Merges staged small big) {object : ObjectKey}
    {when : TimeSpan} {span : CommittedSpan} (h : t.stageSpan small object when span = .ok small') :
    ∃ big', s.stageSpan big object when span = .ok big' ∧ Merges staged small' big' := by
  obtain ⟨nonzero, fits, rfl⟩ := stageSpan_eq_ok.mp h
  have same := merges.stagedEnd_eq ends span.key
  refine ⟨_, stageSpan_eq_ok.mpr ⟨nonzero, by rw [same]; exact fits, rfl⟩, ?_⟩
  rw [same]
  exact merges.insert _ _ _ _

theorem Merges.refl (staged : StagedSpans) : Merges staged ∅ staged := fun _ => rfl

theorem stageAll_merges (ends : ∀ key, t.endOffset key = s.stagedEnd staged key)
    (spans : List (ObjectKey × TimeSpan × CommittedSpan)) :
    (∀ big, s.stageAll staged spans = .ok big →
      ∃ small, t.stageAll ∅ spans = .ok small ∧ Merges staged small big) ∧
    (∀ small, t.stageAll ∅ spans = .ok small →
      ∃ big, s.stageAll staged spans = .ok big ∧ Merges staged small big) := by
  constructor
  · intro big h
    refine foldlM_simulation (fun big small => Merges staged small big) ?_ (Merges.refl staged) h
    exact fun _ _ item _ _ merges hstep => merges.stageSpan ends hstep
  · intro small h
    refine foldlM_simulation (Merges staged) ?_ (Merges.refl staged) h
    exact fun _ _ item _ _ merges hstep => merges.stageSpan_back ends hstep

end

theorem count_added_stagedChanges (object : ObjectKey) (staged : StagedSpans) :
    (stagedChanges staged).count (.added object) = Table.total (fun span : StagedSpan =>
      ((span.entries.map TailEntry.reference).map ObjectRef.object).count object)
        staged.toFinmap := by
  unfold stagedChanges Table.total
  rw [AList.toFinmap_entries, Multiset.map_coe, Multiset.sum_coe]
  generalize staged.entries = l
  induction l with
  | nil => rfl
  | cons e rest ih =>
    have added := count_added_map object (e.2.entries.map TailEntry.reference)
    rw [List.map_map] at added
    simp only [Function.comp_def] at added
    rw [List.flatMap_cons, List.count_append, ih, added, List.map_cons, List.sum_cons]

theorem count_added_stageSpan {s : IndexState} {staged staged' : StagedSpans} {object : ObjectKey}
    {when : TimeSpan} {span : CommittedSpan} (h : s.stageSpan staged object when span = .ok staged')
    (named : ObjectKey) :
    (stagedChanges staged').count (.added named) =
      (stagedChanges staged).count (.added named) + if object = named then 1 else 0 := by
  obtain ⟨-, -, rfl⟩ := stageSpan_eq_ok.mp h
  rw [count_added_stagedChanges, count_added_stagedChanges]
  have trade := Table.total_insert (fun span : StagedSpan =>
    ((span.entries.map TailEntry.reference).map ObjectRef.object).count named) staged.toFinmap
    span.key (extend (staged.lookup span.key) (s.stagedEnd staged span.key + span.recordCount)
      ⟨⟨object, s.stagedEnd staged span.key, span.recordCount⟩, span.bytes⟩ when)
  rw [Finmap.insert_toFinmap, Finmap.lookup_toFinmap] at trade
  cases held : staged.lookup span.key with
  | none =>
    simp only [held, extend, Option.elim_none, List.nil_append, List.map_cons, List.map_nil,
      List.count_singleton, beq_iff_eq] at trade ⊢
    omega
  | some before =>
    simp only [held, extend, Option.elim_some, List.map_append, List.count_append, List.map_cons,
      List.map_nil, List.count_singleton, beq_iff_eq] at trade ⊢
    omega

theorem count_added_stageAll {s : IndexState} {staged staged' : StagedSpans}
    {spans : List (ObjectKey × TimeSpan × CommittedSpan)}
    (h : s.stageAll staged spans = .ok staged') (named : ObjectKey) :
    (stagedChanges staged').count (.added named) =
      (stagedChanges staged).count (.added named) + (spans.map Prod.fst).count named := by
  induction spans generalizing staged with
  | nil =>
    cases h
    rfl
  | cons item rest ih =>
    unfold stageAll at h
    rw [List.foldlM_cons, bind_eq_ok] at h
    obtain ⟨mid, hmid, hrest⟩ := h
    have first := count_added_stageSpan hmid named
    rw [ih hrest, first, List.map_cons, List.count_cons]
    simp only [beq_iff_eq]
    omega

/-- No drop of the page was cut short: there was something to drop. -/
def Covered (s : IndexState) (σ : Scratch) : Prop :=
  ∀ object, σ.proj.changes.count (.dropped object) ≤ s.references.get object +
    (σ.proj.changes.count (.added object) + (stagedChanges σ.staged).count (.added object))

theorem get_landed (s : IndexState) (σ : Scratch) (object : ObjectKey) :
    (s.landed σ).references.get object = s.references.get object +
      (σ.proj.changes.count (.added object) + (stagedChanges σ.staged).count (.added object)) -
        σ.proj.changes.count (.dropped object) := by
  change (s.references.apply (σ.proj.changes ++ stagedChanges σ.staged)).get object = _
  rw [References.get_apply, List.count_append, List.count_append, count_dropped_stagedChanges,
    Nat.add_zero]

/-- Two landings agree when their partitions and counts do: the rest is determined. -/
theorem landed_eq {s t : IndexState} {σ τ : Scratch} (hs : s.Exact) (ht : t.Exact)
    (quota : s.quota = t.quota) (previous : σ.previous = τ.previous)
    (partitions : ∀ key, (s.landed σ).partition key = (t.landed τ).partition key)
    (zs : s.references.NoZero) (zt : t.references.NoZero)
    (counts : ∀ object, (s.landed σ).references.get object = (t.landed τ).references.get object) :
    s.landed σ = t.landed τ := by
  have tables : (s.landed σ).partitions = (t.landed τ).partitions := Finmap.ext_lookup partitions
  have tiers : (s.landed σ).tiers = (t.landed τ).tiers := by
    have hl := hs.landed σ
    have hr := ht.landed τ
    unfold Exact at hl hr
    rw [hl, hr, tables]
  have refs : (s.landed σ).references = (t.landed τ).references :=
    (zs.apply _).ext (zt.apply _) counts
  exact IndexState.ext previous tables tiers (by simpa using quota) refs

section
variable {s : IndexState} {σ : Scratch}

theorem landed_commit (sound : s.Sound) (valid : σ.Valid s) (after : (s.landed σ).Sound)
    (covered : s.Covered σ) {version : Option Nat} {small big : StagedSpans}
    {spans : List (ObjectKey × TimeSpan × CommittedSpan)} (merges : Merges σ.staged small big)
    (hbig : s.stageAll σ.staged spans = .ok big)
    (hsmall : (s.landed σ).stageAll ∅ spans = .ok small) :
    s.landed ⟨version, big, σ.proj⟩ = (s.landed σ).landed ⟨version, small, {}⟩ := by
  have validBig := valid.stageAll hbig version
  have validSmall := (Scratch.Valid.init (s.landed σ)).stageAll hsmall version
  refine landed_eq sound.exact after.exact (by simp) rfl ?_ sound.noZero after.noZero ?_
  case refine_2 =>
    intro object
    have bigCount := count_added_stageAll hbig object
    have smallCount := count_added_stageAll hsmall object
    have bound := covered object
    have none : (stagedChanges ∅).count (.added object) = 0 := rfl
    rw [get_landed, get_landed, get_landed]
    simp only [List.count_nil] at bound ⊢
    omega
  case refine_1 =>
    intro key
    have left := validBig.partition_landed key
    have right : ((s.landed σ).landed ⟨version, small, {}⟩).partition key = _ :=
      validSmall.partition_landed key
    have merged := merges key
    cases hmore : small.lookup key with
    | none =>
      rw [hmore, Option.elim_none] at merged
      have unchanged := right.trans (if_pos ⟨AList.lookup_empty _, hmore⟩)
      rw [left, unchanged, valid.partition_landed]
      simp only [merged]
    | some more =>
      dsimp only [scratchInit] at left right
      rw [left, right, merged, hmore]
      have fresh : (s.landed σ).slotOf {} key =
          finish (σ.staged.lookup key) (takenOf σ.proj key) (s.slotOf σ.proj key) :=
        valid.slot_landed key
      have none : takenOf {} key = 0 := rfl
      have bound := valid.taken_le key
      simp only [Option.elim_some, reduceCtorEq, and_false, if_false, Option.some.injEq, fresh, none]
      cases held : σ.staged.lookup key with
      | none =>
        simp only [precedes, held, Option.elim_none, Nat.le_zero] at bound
        simp [finish, joined, bound]
      | some span =>
        simp only [precedes, held, Option.elim_some] at bound
        simp only [finish, joined, Option.elim_some, List.drop_zero]
        rw [landSpan_landSpan, List.drop_append_of_le_length bound]

theorem landed_effect (sound : s.Sound) (valid : σ.Valid s) (after : (s.landed σ).Sound)
    (covered : s.Covered σ) {version : Option Nat} {key : PartitionKey} {effect : Effect}
    {slot : PartitionIndex} {changes : List RefChange}
    (happly : applyEffect (caught (σ.staged.lookup key) (takenOf σ.proj key)
      (s.slotOf σ.proj key)) key effect = .ok (slot, changes))
    (validNext : Scratch.Valid s ⟨version, σ.staged, ⟨σ.proj.projected.insert key slot,
      σ.proj.changes ++ changes, σ.proj.taken.insert key (precedes σ.staged key)⟩⟩) :
    s.landed ⟨version, σ.staged, ⟨σ.proj.projected.insert key slot, σ.proj.changes ++ changes,
        σ.proj.taken.insert key (precedes σ.staged key)⟩⟩ =
      (s.landed σ).landed ⟨version, ∅, ⟨AList.insert key
        ((σ.staged.lookup key).elim slot fun span => slot.observe span.when) ∅, changes,
          AList.insert key 0 ∅⟩⟩ := by
  refine landed_eq sound.exact after.exact (by simp) rfl ?_ sound.noZero after.noZero ?_
  case refine_2 =>
    intro object
    have bound := covered object
    have none : (stagedChanges ∅) = [] := rfl
    rw [get_landed, get_landed, get_landed]
    simp only [List.count_append, none, List.count_nil] at bound ⊢
    omega
  case refine_1 =>
    intro key'
    rw [validNext.partition_landed]
    have right : ((s.landed σ).landed ⟨version, ∅, ⟨AList.insert key
        ((σ.staged.lookup key).elim slot fun span => slot.observe span.when) ∅, changes,
          AList.insert key 0 ∅⟩⟩).partitions = _ := partitions_landed_effect ..
    unfold partition
    rw [right, Table.lookup_insert_eq]
    dsimp only
    unfold slotOf takenOf
    rw [Table.alist_lookup_insert_eq, Table.alist_lookup_insert_eq]
    by_cases same : key' = key
    · subst same
      simp only [if_true, reduceCtorEq, false_and, if_false, Option.getD_some, Option.some.injEq]
      have stop : slot.endOffset = s.stagedEnd σ.staged key' :=
        (applyEffect_endOffset happly).trans (caught_endOffset valid key')
      rw [finish_eq]
      cases held : σ.staged.lookup key' with
      | none => simp [caught]
      | some span =>
        simp only [stagedEnd, held, Option.elim_some] at stop
        simp only [caught, precedes, held, Option.elim_some, List.drop_length, List.foldl_nil,
          ← stop]
    · rw [if_neg same, if_neg same, if_neg same]
      exact (valid.partition_landed key').symm

theorem applyEffect_landed (valid : σ.Valid s) {key : PartitionKey} {effect : Effect}
    {slot' : PartitionIndex} {changes : List RefChange} :
    applyEffect (((s.landed σ).partition key).getD {}) key effect = .ok (slot', changes) ↔
      ∃ slot, applyEffect (caught (σ.staged.lookup key) (takenOf σ.proj key)
          (s.slotOf σ.proj key)) key effect = .ok (slot, changes) ∧
        slot' = (σ.staged.lookup key).elim slot fun span => slot.observe span.when := by
  rw [valid.slot_landed, finish_eq]
  cases σ.staged.lookup key with
  | none =>
    constructor
    · exact fun h => ⟨slot', h, rfl⟩
    · rintro ⟨slot, h, rfl⟩
      exact h
  | some span => exact applyEffect_observe

/-- A page with one entry more leaves what the entry leaves after the page. -/
theorem step_landed (sound : s.Sound) (valid : σ.Valid s) (after : (s.landed σ).Sound)
    (covered : s.Covered σ) (entry : MetadataEntry) (u : IndexState) :
    (∃ σ', σ.step s entry = .ok σ' ∧ u = s.landed σ') ↔
      ∃ τ, (s.landed σ).scratchInit.step (s.landed σ) entry = .ok τ ∧
        u = (s.landed σ).landed τ := by
  have ends := valid.endOffset_landed
  have merging := stageAll_merges ends (spansOf entry.record)
  constructor
  · rintro ⟨σ', hstep, rfl⟩
    obtain ⟨above, hprevious, hspans, heffect⟩ := Scratch.step_eq_ok.mp hstep
    obtain ⟨previous, staged, proj⟩ := σ'
    dsimp only at hprevious hspans heffect
    subst hprevious
    cases hkind : effectOf entry.record with
    | none =>
      simp only [hkind, Option.elim_none, Except.ok.injEq] at heffect
      subst heffect
      obtain ⟨small, hsmall, merges⟩ := merging.1 staged hspans
      exact ⟨_, step_init_cases.mpr ⟨above, .inl ⟨hkind, small, hsmall, rfl⟩⟩,
        landed_commit sound valid after covered merges hspans hsmall⟩
    | some found =>
      obtain ⟨key, effect⟩ := found
      rw [spansOf_of_effect hkind] at hspans
      obtain rfl : σ.staged = staged := Except.ok.inj hspans
      simp only [hkind, Option.elim_some] at heffect
      obtain ⟨slot, changes, happly, rfl⟩ := valid.projectEffect_eq_ok.mp heffect
      have happly' := (applyEffect_landed valid).mpr ⟨slot, happly, rfl⟩
      exact ⟨_, step_init_cases.mpr ⟨above, .inr ⟨key, effect, _, changes, hkind, happly', rfl⟩⟩,
        landed_effect sound valid after covered happly (valid.step hstep)⟩
  · rintro ⟨τ, hstep, rfl⟩
    obtain ⟨above, ⟨hkind, small, hsmall, rfl⟩ | ⟨key, effect, slot', changes, hkind, happly', rfl⟩⟩ :=
      step_init_cases.mp hstep
    · obtain ⟨big, hbig, merges⟩ := merging.2 small hsmall
      refine ⟨⟨some entry.version, big, σ.proj⟩, Scratch.step_eq_ok.mpr
        ⟨above, rfl, hbig, by simp [hkind]⟩, ?_⟩
      exact (landed_commit sound valid after covered merges hbig hsmall).symm
    · obtain ⟨slot, happly, rfl⟩ := (applyEffect_landed valid).mp happly'
      have hproj := valid.projectEffect_eq_ok.mpr ⟨slot, changes, happly, rfl⟩
      have hnext : σ.step s entry = .ok ⟨some entry.version, σ.staged, _⟩ :=
        Scratch.step_eq_ok.mpr ⟨above, rfl, by rw [spansOf_of_effect hkind]; rfl,
          by simpa [hkind] using hproj⟩
      exact ⟨_, hnext, (landed_effect sound valid after covered happly (valid.step hnext)).symm⟩

end

/-- One entry on its own, before any ceiling is asked. -/
def advance (s : IndexState) (entry : MetadataEntry) : Except Error IndexState :=
  (s.scratchInit.step s entry).map s.landed

theorem advance_eq_ok {s t : IndexState} {entry : MetadataEntry} :
    s.advance entry = .ok t ↔ ∃ σ, s.scratchInit.step s entry = .ok σ ∧ t = s.landed σ := by
  unfold advance
  cases s.scratchInit.step s entry with
  | error e => simp [Except.map]
  | ok σ => simp [Except.map, eq_comm]

theorem Covered.step {s : IndexState} {σ σ' : Scratch} (valid : σ.Valid s)
    (after : (s.landed σ).Sound) (covered : s.Covered σ) {entry : MetadataEntry}
    (h : σ.step s entry = .ok σ') : s.Covered σ' := by
  obtain ⟨-, -, hspans, heffect⟩ := Scratch.step_eq_ok.mp h
  intro object
  have added := count_added_stageAll hspans object
  have bound := covered object
  cases hkind : effectOf entry.record with
  | none =>
    simp only [hkind, Option.elim_none, Except.ok.injEq] at heffect
    rw [← heffect, added]
    omega
  | some found =>
    obtain ⟨key, effect⟩ := found
    rw [spansOf_of_effect hkind] at hspans
    obtain hstaged : σ.staged = σ'.staged := Except.ok.inj hspans
    simp only [hkind, Option.elim_some, ← hstaged] at heffect
    obtain ⟨slot, changes, happly, hproj⟩ := valid.projectEffect_eq_ok.mp heffect
    have happly' := (applyEffect_landed valid).mpr ⟨slot, happly, rfl⟩
    have effectOn := applyEffect_naming (after.slot_wf key) happly' object
    have resident : (((s.landed σ).partition key).getD {}).naming object ≤
        (s.landed σ).references.get object := by
      refine le_trans ?_ (after.counted object)
      cases held : (s.landed σ).partition key with
      | none => exact Nat.zero_le _
      | some p => exact Table.le_total (naming object) held
    rw [get_landed] at resident
    rw [hproj, ← hstaged]
    simp only [List.count_append]
    omega

/-- A page is the fold of its entries, and leaves a sound index. -/
theorem Sound.page {s : IndexState} (sound : s.Sound) (entries : List MetadataEntry) :
    (∀ σ, entries.foldlM (Scratch.step s) s.scratchInit = .ok σ →
      entries.foldlM advance s = .ok (s.landed σ) ∧
        (s.landed σ).Sound ∧ s.Covered σ ∧ σ.Valid s) ∧
    (∀ t, entries.foldlM advance s = .ok t →
      ∃ σ, entries.foldlM (Scratch.step s) s.scratchInit = .ok σ ∧ t = s.landed σ) := by
  induction entries using List.reverseRecOn with
  | nil =>
    have same : s.landed s.scratchInit = s := IndexState.ext rfl rfl rfl rfl rfl
    constructor
    · intro σ h
      cases h
      rw [same]
      exact ⟨rfl, sound, fun _ => Nat.zero_le _, Scratch.Valid.init s⟩
    · intro t h
      cases h
      exact ⟨_, rfl, same.symm⟩
  | append_singleton before entry ih =>
    simp only [foldlM_snoc, bind_eq_ok]
    have once : ∀ σ, before.foldlM (Scratch.step s) s.scratchInit = .ok σ →
        ∀ u, (∃ σ', σ.step s entry = .ok σ' ∧ u = s.landed σ') ↔
          (s.landed σ).advance entry = .ok u := by
      intro σ hσ u
      obtain ⟨-, after, covered, valid⟩ := ih.1 σ hσ
      rw [step_landed sound valid after covered, advance_eq_ok]
    constructor
    · rintro σ' ⟨σ, hσ, hstep⟩
      obtain ⟨hfold, after, covered, valid⟩ := ih.1 σ hσ
      have hadvance := (once σ hσ _).mp ⟨σ', hstep, rfl⟩
      obtain ⟨τ, hτ, hsame⟩ := advance_eq_ok.mp hadvance
      refine ⟨⟨_, hfold, hadvance⟩, ?_, covered.step valid after hstep, valid.step hstep⟩
      rw [hsame]
      exact after.step hτ
    · rintro u ⟨t, ht, hadvance⟩
      obtain ⟨σ, hσ, rfl⟩ := ih.2 t ht
      obtain ⟨σ', hstep, rfl⟩ := (once σ hσ u).mpr hadvance
      exact ⟨σ', ⟨σ, hσ, hstep⟩, rfl⟩

theorem Sound.apply_advance {s t : IndexState} (sound : s.Sound) {entries : List MetadataEntry}
    (h : s.apply entries = .ok t) : entries.foldlM advance s = .ok t := by
  obtain ⟨σ, hσ, -, rfl⟩ := apply_eq_ok.mp h
  exact ((sound.page entries).1 σ hσ).1

theorem Sound.apply {s t : IndexState} (sound : s.Sound) {entries : List MetadataEntry}
    (h : s.apply entries = .ok t) : t.Sound := by
  obtain ⟨σ, hσ, -, rfl⟩ := apply_eq_ok.mp h
  exact ((sound.page entries).1 σ hσ).2.1

theorem Sound.page_agrees {s : IndexState} (sound : s.Sound) (unbounded : s.quota = none)
    (entries : List MetadataEntry) : Agree (s.apply entries) (entries.foldlM advance s) := by
  intro t
  constructor
  · exact sound.apply_advance
  · intro h
    obtain ⟨σ, hσ, rfl⟩ := (sound.page entries).2 t h
    exact apply_eq_ok.mpr ⟨σ, hσ, by simp [checkQuota, unbounded], rfl⟩

theorem quota_apply {s t : IndexState} {entries : List MetadataEntry}
    (h : s.apply entries = .ok t) : t.quota = s.quota := by
  obtain ⟨σ, -, -, rfl⟩ := apply_eq_ok.mp h
  exact quota_landed s σ

theorem Sound.pages_agree {s : IndexState} (sound : s.Sound) (unbounded : s.quota = none)
    (pages : List (List MetadataEntry)) :
    Agree (pages.foldlM IndexState.apply s) (pages.flatten.foldlM advance s) := by
  induction pages generalizing s with
  | nil => exact Agree.refl _
  | cons page rest ih =>
    rw [List.foldlM_cons, List.flatten_cons, List.foldlM_append]
    refine (sound.page_agrees unbounded page).bind fun t ht => ?_
    exact ih (sound.apply ht) ((quota_apply ht).trans unbounded)

theorem Sound.fold {s t : IndexState} (sound : s.Sound) {pages : List (List MetadataEntry)}
    (h : pages.foldlM IndexState.apply s = .ok t) : t.Sound :=
  foldlM_invariant Sound (fun _ _ _ _ held happly => held.apply happly) sound h

theorem quota_fold {s t : IndexState} {pages : List (List MetadataEntry)}
    (h : pages.foldlM IndexState.apply s = .ok t) : t.quota = s.quota :=
  foldlM_invariant (fun u : IndexState => u.quota = s.quota)
    (fun _ _ _ _ held happly => (quota_apply happly).trans held) rfl h

/-- Wherever a log is cut, and whatever was folded before it, the pages of it
are accepted exactly when the whole is, and leave the same state. -/
theorem apply_paging_invariant (prior pages : List (List MetadataEntry)) :
    (prior.foldlM apply new >>= fun s => s.apply pages.flatten).toOption =
      (prior.foldlM apply new >>= fun s => pages.foldlM apply s).toOption := by
  apply Agree.toOption_eq
  refine (Agree.refl _).bind fun s hs => ?_
  have sound : s.Sound := Sound.fold (Sound.empty none) hs
  have unbounded : s.quota = none := quota_fold hs
  exact (sound.page_agrees unbounded _).trans (sound.pages_agree unbounded pages).symm

end IndexState

end Oqueue
