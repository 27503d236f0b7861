import Oqueue.Index.Entry
import Oqueue.Index.Quota

/-!
# Object counts are exact

An object's count is the entries that name it, resident or handed over to a
manifest. The changes of a page are folded apart from the entries they are
about, additions first, and every drop among them finds something to take away.
-/

namespace Oqueue

open Checked Tiling PartitionIndex

namespace References

/-- Every drop finds a count to take one from, so none is cut short at zero. -/
def DropsFound : References → List RefChange → Prop
  | _, [] => True
  | self, c :: rest => (∀ key, c = .dropped key → 0 < self.get key) ∧ DropsFound (self.change c) rest

theorem DropsFound.of_added {adds drops : List RefChange} (all : ∀ c ∈ adds, c.isAdded = true)
    {r : References} (h : DropsFound (adds.foldl change r) drops) :
    DropsFound r (adds ++ drops) := by
  induction adds generalizing r with
  | nil => exact h
  | cons c rest ih =>
    refine ⟨?_, ih (fun d hd => all d (List.mem_cons_of_mem _ hd)) h⟩
    rintro key rfl
    exact absurd (all _ (List.mem_cons_self ..)) (by simp [RefChange.isAdded])

theorem DropsFound.of_count {drops : List RefChange} (all : ∀ c ∈ drops, c.isAdded = false)
    {r : References} (h : ∀ object, drops.count (.dropped object) ≤ r.get object) :
    DropsFound r drops := by
  induction drops generalizing r with
  | nil => trivial
  | cons c rest ih =>
    cases c with
    | added key => exact absurd (all _ (List.mem_cons_self ..)) (by simp [RefChange.isAdded])
    | dropped key =>
      refine ⟨?_, ih (fun d hd => all d (List.mem_cons_of_mem _ hd)) ?_⟩
      · rintro _ ⟨⟩
        have here := h key
        rw [List.count_cons_self] at here
        omega
      · intro object
        have here := h object
        rw [List.count_cons] at here
        rw [get_change_dropped]
        simp only [beq_iff_eq, RefChange.dropped.injEq] at here
        by_cases same : key = object
        · simp only [same, if_true] at here ⊢
          omega
        · simp only [same, if_false] at here ⊢
          omega

theorem DropsFound.apply {r : References} {changes : List RefChange}
    (h : ∀ object, changes.count (.dropped object) ≤ r.get object + changes.count (.added object)) :
    r.DropsFound (changes.filter RefChange.isAdded ++ changes.filter fun c => !c.isAdded) := by
  apply DropsFound.of_added (by simp)
  apply DropsFound.of_count (by simp)
  intro object
  rw [get_foldl_added _ (by simp), List.count_filter (by rfl), List.count_filter (by rfl)]
  exact h object

end References

namespace IndexState

/-- What a page's fold hands to the counts. -/
def refChanges (self : IndexState) (entries : List MetadataEntry) :
    Except Error (List RefChange) := do
  let (_, batch) ← entries.foldlM self.readEntry (self.appliedUpto, {})
  let (_, changes) ← self.project batch.effects batch.staged
  return changes ++ stagedChanges batch.staged

/-- The entries naming an object that a page hands over to manifests, each found
in the index as the entries before it leave it. -/
def absorbedIn (object : ObjectKey) : IndexState → List MetadataEntry → Nat
  | _, [] => 0
  | s, entry :: rest => s.absorbedBy object entry.record +
    match s.unbounded.apply [entry] with
    | .ok t => absorbedIn object t rest
    | .error _ => 0

/-- The same over a run of pages; a refused page hands nothing over. -/
def absorbedOver (object : ObjectKey) : IndexState → List (List MetadataEntry) → Nat
  | _, [] => 0
  | s, page :: rest =>
    (match s.apply page with
      | .ok _ => absorbedIn object s page
      | .error _ => 0) + absorbedOver object (s.call (.apply page)) rest

theorem refChanges_of_loop {s : IndexState} {entries : List MetadataEntry} {σ : Scratch}
    (loop : entries.foldlM (Scratch.step s) s.scratchInit = .ok σ) :
    s.refChanges entries = .ok (σ.proj.changes ++ stagedChanges σ.staged) := by
  have valid : σ.Valid s := foldlM_invariant (Scratch.Valid s)
    (fun _ _ _ _ valid hstep => valid.step hstep) (Scratch.Valid.init s) loop
  obtain ⟨batch, hread, hstaged, hproj⟩ := (twoPass_iff s entries σ).mpr loop
  have hsettled := valid.settle_ok
  rw [← hstaged] at hsettled
  unfold refChanges project
  rw [hread]
  dsimp only [bind_ok]
  rw [hproj]
  dsimp only [bind_ok]
  rw [hsettled, ← hstaged]
  rfl

theorem Sound.drops_found {s : IndexState} (sound : s.Sound) {entries : List MetadataEntry}
    {t : IndexState} (h : s.apply entries = .ok t) : ∃ changes,
      s.refChanges entries = .ok changes ∧ t.references = s.references.apply changes ∧
        s.references.DropsFound
          (changes.filter RefChange.isAdded ++ changes.filter fun c => !c.isAdded) := by
  obtain ⟨σ, loop, -, rfl⟩ := apply_eq_ok.mp h
  obtain ⟨-, -, covered, -⟩ := (sound.page entries).1 σ loop
  refine ⟨_, refChanges_of_loop loop, rfl, References.DropsFound.apply fun object => ?_⟩
  have bound := covered object
  rw [List.count_append, List.count_append, count_dropped_stagedChanges]
  omega

theorem advance_unbounded {s t : IndexState} {entry : MetadataEntry}
    (h : s.advance entry = .ok t) : s.unbounded.apply [entry] = .ok t.unbounded := by
  obtain ⟨σ, hσ, rfl⟩ := advance_eq_ok.mp h
  have same : s.unbounded.advance entry = .ok (s.unbounded.landed σ) :=
    advance_eq_ok.mpr ⟨σ, hσ, rfl⟩
  rw [landed_unbounded] at same
  exact (apply_entry_eq_ok rfl).mpr same

theorem absorbedIn_unbounded (object : ObjectKey) (s : IndexState) (entries : List MetadataEntry) :
    absorbedIn object s.unbounded entries = absorbedIn object s entries := by
  cases entries with
  | nil => rfl
  | cons entry rest => rfl

/-- Over a page, an object's count moves as the resident entries do, but for what
the page hands over. -/
theorem Sound.counts_page {s t : IndexState} (sound : s.Sound) {entries : List MetadataEntry}
    (h : entries.foldlM advance s = .ok t) (object : ObjectKey) :
    t.references.get object + Table.total (naming object) s.partitions =
      s.references.get object + Table.total (naming object) t.partitions +
        absorbedIn object s entries := by
  induction entries generalizing s with
  | nil =>
    cases h
    rfl
  | cons entry rest ih =>
    rw [List.foldlM_cons, bind_eq_ok] at h
    obtain ⟨mid, hmid, hrest⟩ := h
    obtain ⟨σ, hσ, rfl⟩ := advance_eq_ok.mp hmid
    have first := sound.counts_step hσ object
    have later := ih (sound.step hσ) hrest
    have taken : absorbedIn object s (entry :: rest) = s.absorbedBy object entry.record +
        absorbedIn object (s.landed σ) rest := by
      rw [absorbedIn, advance_unbounded hmid]
      dsimp only
      rw [absorbedIn_unbounded]
    rw [taken]
    omega

/-- Over a run of pages, accepted or refused. -/
theorem Sound.counts_run {s : IndexState} (sound : s.Sound) (pages : List (List MetadataEntry))
    (object : ObjectKey) :
    (s.calls (pages.map .apply)).references.get object +
        Table.total (naming object) s.partitions =
      s.references.get object +
        Table.total (naming object) (s.calls (pages.map .apply)).partitions +
          absorbedOver object s pages := by
  induction pages generalizing s with
  | nil => rfl
  | cons page rest ih =>
    have ran : s.calls ((page :: rest).map .apply) =
        (s.call (.apply page)).calls (rest.map .apply) := rfl
    have counted := on_applyInPlace page s
    rw [ran, absorbedOver]
    cases h : s.apply page with
    | ok t =>
      have left : s.call (.apply page) = t := by
        rw [h] at counted
        exact congrArg Prod.snd counted
      have first := sound.counts_page (sound.apply_advance h) object
      have later := ih (sound.apply h)
      rw [left]
      dsimp only
      omega
    | error e =>
      have left : s.call (.apply page) = s := by
        rw [h] at counted
        exact congrArg Prod.snd counted
      have later := ih sound
      rw [left]
      dsimp only
      omega

/-- An object's count is the entries that name it, resident or handed over; no drop is
ever cut short; and at zero nothing resident names it. -/
theorem references_exact (quota : Option IndexQuota) (pages : List (List MetadataEntry))
    (object : ObjectKey) :
    let s := calls { quota := quota } (pages.map .apply)
    s.references.get object = Table.total (naming object) s.partitions +
        absorbedOver object { quota := quota } pages ∧
    (∀ page t, s.apply page = .ok t → ∃ changes, s.refChanges page = .ok changes ∧
      t.references = s.references.apply changes ∧ s.references.DropsFound
        (changes.filter RefChange.isAdded ++ changes.filter fun c => !c.isAdded)) ∧
    (s.references.get object = 0 → ∀ key p, s.partition key = some p →
      ∀ r ∈ p.history ++ p.tail.map TailEntry.reference, r.object ≠ object) := by
  intro s
  have counted := (Sound.empty quota).counts_run pages object
  have reached := calls_invariant quota Sound (Sound.empty quota)
    (fun _ _ _ _ sound accepted => sound.apply accepted) (pages.map .apply)
  refine ⟨?_, fun page t accepted => reached.2.drops_found accepted, ?_⟩
  · have empty : Table.total (naming object) ({ quota := quota } : IndexState).partitions = 0 :=
      Table.total_empty _
    have none : ({ quota := quota } : IndexState).references.get object = 0 := rfl
    rw [empty, none, Nat.zero_add, Nat.add_zero] at counted
    exact counted
  · intro zero key p held r hr same
    have bound := reached.2.counted object
    have share := Table.le_total (naming object) (show s.partitions.lookup key = some p from held)
    have named : 0 < p.naming object :=
      List.count_pos_iff.mpr (List.mem_map.mpr ⟨r, hr, same⟩)
    have counts : s.references.get object = 0 := zero
    change Table.total (naming object) s.partitions ≤ s.references.get object at bound
    omega

end IndexState

end Oqueue
