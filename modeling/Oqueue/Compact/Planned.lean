import Oqueue.Compact.Survey

/-!
# Where a planned range lies

The pages a survey reads do not show in what it folds: it sees the batches of its
range, perhaps the next one, and nothing else. The run it reports tiles the range a
plan is over, so that range is a block of the partition's history.
-/

namespace Oqueue.Compact

open Checked Tiling PartitionIndex

variable {s : IndexState} {key : PartitionKey} {p : PartitionIndex}

theorem mem_refs_of_resident {batch : IndexedBatch} (h : batch ∈ p.resident) :
    batch.reference ∈ p.refs := by
  rw [← p.resident_reference]
  exact List.mem_map_of_mem h

theorem pages_findBatches (held : s.partition key = some p) (wf : p.WF) :
    Paged.Pages (ObjectRef.stop ∘ IndexedBatch.reference) p.resident p.logStart
      fun cursor => s.findBatches key cursor u64Max := by
  intro cursor started
  dsimp only
  rw [IndexState.findBatches_of_held held]
  exact wf.findBatches_spec started u64Max

/-- What visiting a batch folds, when the batch's end is an offset. -/
def Walk.see (self : Walk) (batch : IndexedBatch) : Walk :=
  self.fold (self.extentOf batch batch.reference.stop)

theorem Walk.visits (wf : p.WF) (start stop : Nat) :
    Paged.Visits (fun walk : Walk => walk.start = start ∧ walk.stop = stop)
      (ObjectRef.baseOffset ∘ IndexedBatch.reference) (ObjectRef.stop ∘ IndexedBatch.reference)
      Walk.visit Walk.see stop p.resident := by
  rintro walk ⟨rfl, rfl⟩ batch hbatch
  refine ⟨⟨rfl, rfl⟩, ?_⟩
  have stops := wf.endOffset_ok (mem_refs_of_resident hbatch)
  unfold Walk.visit
  rw [stops, bind_ok]
  by_cases past : walk.stop ≤ batch.reference.baseOffset
  · rw [if_pos past, if_neg (by simpa using past)]
    rfl
  · rw [if_neg past, if_pos (by simpa using past)]
    rfl

theorem Walk.foldl_see (walk : Walk) (batches : List IndexedBatch) :
    batches.foldl Walk.see walk = { walk with
      seen := (batches.map fun batch => walk.extentOf batch batch.reference.stop).foldl
        (Grouping.add Extent.object Extent.absorb) walk.seen } := by
  induction batches generalizing walk with
  | nil => rfl
  | cons batch rest ih => exact ih (walk.see batch)

/-- The probe only bars objects. -/
theorem probe_ok (held : s.partition key = some p) (wf : p.WF) {start : Nat}
    (started : p.logStart ≤ start) (stop : Nat) :
    ∃ barred, probe s key { start := start, stop := stop } =
      .ok { start := start, stop := stop, barred := barred } := by
  have bars : ∀ (batches : List IndexedBatch) (barred : List ObjectKey), ∃ barred',
      batches.foldl barBelow { start := start, stop := stop, barred := barred } =
        { start := start, stop := stop, barred := barred' } := by
    intro batches
    induction batches with
    | nil => exact fun barred => ⟨barred, rfl⟩
    | cons batch rest ih =>
      intro barred
      rw [List.foldl_cons]
      unfold barBelow
      split
      · exact ih _
      · exact ih _
  have lookup : ∃ batches, lookBelow s key start = .ok batches := by
    unfold lookBelow
    by_cases below : start - 1 < p.logStart
    · obtain ⟨batches, -, hbatches, -⟩ := wf.findBatches_spec started u64Max
      refine ⟨batches, ?_⟩
      rw [IndexState.findBatches_of_held held, IndexState.findBatches_of_held held]
      have refused : p.findBatches (start - 1) u64Max =
          .error (.belowLogStart (start - 1) p.logStart) := if_pos below
      rw [refused, hbatches]
    · obtain ⟨batches, -, hbatches, -⟩ := wf.findBatches_spec (Nat.le_of_not_lt below) u64Max
      refine ⟨batches, ?_⟩
      rw [IndexState.findBatches_of_held held, hbatches]
  obtain ⟨batches, hlookup⟩ := lookup
  unfold probe
  dsimp only
  split
  · rw [hlookup, bind_ok]
    obtain ⟨barred, hbars⟩ := bars batches []
    exact ⟨barred, congrArg Except.ok hbars⟩
  · exact ⟨[], rfl⟩

/-- The walk a survey finishes: what it folded, and that pages do not show in it. -/
structure Surveyed (p : PartitionIndex) (walk : Walk) (inside past : List IndexedBatch) : Prop where
  sees : ∃ rest, Paged.Sees (ObjectRef.baseOffset ∘ IndexedBatch.reference) walk.stop
    (Paged.from_ (ObjectRef.stop ∘ IndexedBatch.reference) p.resident walk.start) inside past rest
  seen : walk.seen = Grouping.collect Extent.object Extent.absorb
    ((inside ++ past).map fun batch => walk.extentOf batch batch.reference.stop)

theorem survey_eq (held : s.partition key = some p) (wf : p.WF) {start stop : Nat}
    (started : p.logStart ≤ start) (range : start < stop) :
    ∃ walk inside past, survey s key start stop = .ok walk.finish ∧ walk.start = start ∧
      walk.stop = stop ∧ Surveyed p walk inside past := by
  obtain ⟨barred, hprobe⟩ := probe_ok held wf started stop
  obtain ⟨first, tiles⟩ := wf.tiles
  obtain ⟨inside, past, rest, sees, hwalk⟩ := Paged.walk_eq (tiles_resident.mp tiles)
    (pages_findBatches held wf) (Walk.visits wf start stop) started (Nat.le_refl _)
    (fun ends => absurd range (Nat.not_lt.mpr ends))
    (show ({ start := start, stop := stop, barred := barred } : Walk).start = start ∧ _ from
      ⟨rfl, rfl⟩)
  rw [Walk.foldl_see] at hwalk
  let spans := (inside ++ past).map fun batch =>
    ({ start := start, stop := stop } : Walk).extentOf batch batch.reference.stop
  refine ⟨{
      start := start
      stop := stop
      seen := Grouping.collect Extent.object Extent.absorb spans
      barred := barred }, inside, past, ?_, rfl, rfl, ⟨⟨rest, sees⟩, rfl⟩⟩
  unfold survey
  rw [hprobe, bind_ok, hwalk]
  rfl

abbrev ExtentTiles (extents : List Extent) (low high : Nat) : Prop :=
  Tiles Extent.firstBase Extent.lastEnd extents low high

/-- A run's counts are those of the objects in it: those before the first of the tail
from `low` to `middle`, the others from there to `high`. -/
structure Measures (run : Run) (front back : List Extent) (low middle high : Nat) : Prop where
  front_tiles : ExtentTiles front low middle
  back_tiles : ExtentTiles back middle high
  history : ∀ e ∈ front, e.tail = false
  covered : run.covered = if front ++ back = [] then none else some (low, high)
  objects : run.objectsTouched = (front ++ back).length
  records : run.records = ((front ++ back).map Extent.records).sum
  firstTail : run.firstTailBase = if back = [] then none else some middle
  historyObjects : run.historyObjects = front.length
  historyRecords : run.historyRecords = (front.map Extent.records).sum

theorem Measures.empty (low : Nat) : Measures {} [] [] low low low where
  front_tiles := rfl
  back_tiles := rfl
  history := by simp
  covered := rfl
  objects := rfl
  records := rfl
  firstTail := rfl
  historyObjects := rfl
  historyRecords := rfl

theorem Measures.take {run : Run} {front back : List Extent} {low middle high : Nat}
    (m : Measures run front back low middle high) {e : Extent} (wide : e.firstBase < e.lastEnd)
    (meets : e.firstBase = high) : ∃ front' back' middle',
      Measures (run.take e) front' back' low middle' e.lastEnd ∧
        front' ++ back' = front ++ back ++ [e] := by
  have one : ExtentTiles [e] high e.lastEnd := ⟨meets, meets ▸ wide, rfl⟩
  have low_eq : run.covered.elim e.firstBase Prod.fst = low := by
    rw [m.covered]
    split
    · rename_i none
      rw [List.append_eq_nil_iff] at none
      have first : low = middle := by simpa [none.1] using m.front_tiles
      have second : middle = high := by simpa [none.2] using m.back_tiles
      exact meets.trans (first.trans second).symm
    · rfl
  have some_e : ∀ l : List Extent, l ++ [e] ≠ [] := by simp
  by_cases tail : e.tail = true
  · refine ⟨front, back ++ [e], middle, ?_, (List.append_assoc ..).symm⟩
    exact {
      front_tiles := m.front_tiles
      back_tiles := m.back_tiles.append one
      history := m.history
      covered := by
        rw [← List.append_assoc, if_neg (some_e _)]
        simp [Run.take, tail, low_eq]
      objects := by simp [Run.take, tail, m.objects, Nat.add_assoc]
      records := by simp [Run.take, tail, m.records, Nat.add_assoc]
      firstTail := by
        rw [if_neg (some_e _)]
        have := m.back_tiles.le
        simp only [Run.take, tail, if_true, m.firstTail, Option.some_inj]
        split
        · rename_i none
          have ends : middle = high := by simpa [none] using m.back_tiles
          exact meets.trans ends.symm
        · exact Nat.min_eq_left (by omega)
      historyObjects := by simp [Run.take, tail, m.historyObjects]
      historyRecords := by simp [Run.take, tail, m.historyRecords] }
  · by_cases none : back = []
    · -- No tail object yet, so this one is history.
      subst none
      have ends : middle = high := m.back_tiles
      subst ends
      refine ⟨front ++ [e], [], e.lastEnd, ?_, by simp⟩
      have seen : run.firstTailBase = Option.none := m.firstTail
      exact {
        front_tiles := m.front_tiles.append one
        back_tiles := rfl
        history := by
          intro x hx
          rcases List.mem_append.mp hx with hx | hx
          · exact m.history x hx
          · rw [List.mem_singleton.mp hx]
            simpa using tail
        covered := by
          rw [List.append_nil, if_neg (some_e _)]
          simp [Run.take, tail, seen, low_eq]
        objects := by simp [Run.take, tail, seen, m.objects]
        records := by simp [Run.take, tail, seen, m.records]
        firstTail := by simp [Run.take, tail, seen]
        historyObjects := by simp [Run.take, tail, seen, m.historyObjects]
        historyRecords := by simp [Run.take, tail, seen, m.historyRecords] }
    · refine ⟨front, back ++ [e], middle, ?_, (List.append_assoc ..).symm⟩
      have seen : run.firstTailBase = some middle := by rw [m.firstTail, if_neg none]
      exact {
        front_tiles := m.front_tiles
        back_tiles := m.back_tiles.append one
        history := m.history
        covered := by
          rw [← List.append_assoc, if_neg (some_e _)]
          simp [Run.take, tail, seen, low_eq]
        objects := by simp [Run.take, tail, seen, m.objects, Nat.add_assoc]
        records := by simp [Run.take, tail, seen, m.records, Nat.add_assoc]
        firstTail := by
          rw [if_neg (some_e _)]
          simp [Run.take, tail, seen]
        historyObjects := by simp [Run.take, tail, seen, m.historyObjects]
        historyRecords := by simp [Run.take, tail, seen, m.historyRecords] }

/-- What a run adds to one already measured: some of the objects that are whole, in
the order they were seen. -/
theorem Measures.runFrom {walk : Walk} {extents : List Extent} {run : Run}
    {front back : List Extent} {low middle high : Nat} (m : Measures run front back low middle high)
    (wide : ∀ e ∈ extents, e.firstBase < e.lastEnd) :
    ∃ front' back' low' middle' high' taken,
      Measures (walk.runFrom extents run) front' back' low' middle' high' ∧
        front' ++ back' = front ++ back ++ taken ∧
        taken.Sublist (extents.filter fun e => e.whole && !walk.barred.contains e.object) := by
  induction extents generalizing run front back low middle high with
  | nil => exact ⟨front, back, low, middle, high, [], m, by simp, by simp⟩
  | cons e rest ih =>
    have wideRest : ∀ x ∈ rest, x.firstBase < x.lastEnd :=
      fun x hx => wide x (List.mem_cons_of_mem _ hx)
    unfold Walk.runFrom
    by_cases skipped : (!e.whole || walk.barred.contains e.object) = true
    · rw [if_pos skipped, List.filter_cons_of_neg (by grind)]
      exact ih m wideRest
    · rw [if_neg skipped, List.filter_cons_of_pos (by simpa using skipped)]
      have goes : ∀ {front back : List Extent} {low middle : Nat},
          Measures run front back low middle e.firstBase → ∃ front' back' low' middle' high' taken,
            Measures (walk.runFrom rest (run.take e)) front' back' low' middle' high' ∧
              front' ++ back' = front ++ back ++ taken ∧ taken.Sublist
                (e :: rest.filter fun e => e.whole && !walk.barred.contains e.object) := by
        intro front back low middle m
        obtain ⟨front₁, back₁, middle₁, m₁, hsplit₁⟩ :=
          m.take (wide e (List.mem_cons_self ..)) rfl
        obtain ⟨front₂, back₂, low₂, middle₂, high₂, taken, m₂, hsplit₂, sub⟩ := ih m₁ wideRest
        exact ⟨front₂, back₂, low₂, middle₂, high₂, e :: taken, m₂, by simp [hsplit₂, hsplit₁],
          sub.cons_cons e⟩
      cases hcovered : run.covered with
      | none =>
        have nothing : front ++ back = [] := by
          by_contra some
          rw [m.covered, if_neg some] at hcovered
          cases hcovered
        obtain ⟨rfl, rfl⟩ := List.append_eq_nil_iff.mp nothing
        have again : Measures run [] [] e.firstBase e.firstBase e.firstBase :=
          { m with
            front_tiles := rfl
            back_tiles := rfl
            covered := m.covered
            firstTail := m.firstTail }
        exact goes again
      | some range =>
        dsimp only
        split
        · exact ⟨front, back, low, middle, high, [], m, by simp, by simp⟩
        · rename_i meets
          have ends : range.2 = high := by
            rw [m.covered] at hcovered
            split at hcovered
            · cases hcovered
            · cases hcovered
              rfl
          have joins : e.firstBase = high := by
            rw [← ends]
            simpa using meets
          subst joins
          exact goes m

/-- An object's extent, and the spans it was folded from. -/
structure Spans (e : Extent) (spans : List Extent) : Prop where
  first : ∃ x ∈ spans, x.firstBase = e.firstBase
  last : ∃ x ∈ spans, x.lastEnd = e.lastEnd
  bounds : ∀ x ∈ spans, e.firstBase ≤ x.firstBase ∧ x.lastEnd ≤ e.lastEnd
  records : e.records = (spans.map Extent.records).sum
  tail : e.tail = false → ∀ x ∈ spans, x.tail = false
  whole : e.whole = true → ∀ x ∈ spans, x.whole = true

theorem Spans.one (e : Extent) : Spans e [e] where
  first := ⟨e, List.mem_singleton_self e, rfl⟩
  last := ⟨e, List.mem_singleton_self e, rfl⟩
  bounds := by simp
  records := by simp
  tail := by simp
  whole := by simp

theorem Spans.absorb {e : Extent} {spans : List Extent} (h : Spans e spans) (x : Extent) :
    Spans (e.absorb x) (spans ++ [x]) where
  first := by
    obtain ⟨y, hy, first⟩ := h.first
    by_cases lower : x.firstBase ≤ e.firstBase
    · exact ⟨x, by simp, (Nat.min_eq_right lower).symm⟩
    · exact ⟨y, List.mem_append_left _ hy, first.trans (Nat.min_eq_left (by omega)).symm⟩
  last := by
    obtain ⟨y, hy, last⟩ := h.last
    by_cases higher : e.lastEnd ≤ x.lastEnd
    · exact ⟨x, by simp, (Nat.max_eq_right higher).symm⟩
    · exact ⟨y, List.mem_append_left _ hy, last.trans (Nat.max_eq_left (by omega)).symm⟩
  bounds := by
    intro y hy
    change min e.firstBase x.firstBase ≤ y.firstBase ∧ y.lastEnd ≤ max e.lastEnd x.lastEnd
    rcases List.mem_append.mp hy with hy | hy
    · have := h.bounds y hy
      omega
    · rw [List.mem_singleton.mp hy]
      omega
  records := by
    rw [List.map_append, List.sum_append, ← h.records]
    simp [Extent.absorb]
  tail := by
    intro tail y hy
    obtain ⟨left, right⟩ := Bool.or_eq_false_iff.mp tail
    rcases List.mem_append.mp hy with hy | hy
    · exact h.tail left y hy
    · exact List.mem_singleton.mp hy ▸ right
  whole := by
    intro whole y hy
    obtain ⟨left, right⟩ := Bool.and_eq_true_iff.mp whole
    rcases List.mem_append.mp hy with hy | hy
    · exact h.whole left y hy
    · exact List.mem_singleton.mp hy ▸ right

theorem Spans.of_joined {e : Extent} {spans : List Extent}
    (h : Grouping.joined Extent.absorb spans = some e) : Spans e spans := by
  cases spans with
  | nil => cases h
  | cons first rest =>
    cases h
    induction rest using List.reverseRecOn with
    | nil => exact Spans.one first
    | append_singleton rest x ih =>
      rw [List.foldl_append, List.foldl_cons, List.foldl_nil, ← List.cons_append]
      exact ih.absorb x

def batchesOf (batches : List IndexedBatch) (object : ObjectKey) : List IndexedBatch :=
  batches.filter fun batch => decide (batch.reference.object = object)

theorem Surveyed.spans {walk : Walk} {inside past : List IndexedBatch}
    (h : Surveyed p walk inside past) {e : Extent} (he : e ∈ walk.seen) :
    Spans e ((batchesOf (inside ++ past) e.object).map
      fun batch => walk.extentOf batch batch.reference.stop) := by
  rw [h.seen, Grouping.mem_collect Extent.object_absorb] at he
  have under : Grouping.under Extent.object ((inside ++ past).map
      fun batch => walk.extentOf batch batch.reference.stop) e.object =
        (batchesOf (inside ++ past) e.object).map
          fun batch => walk.extentOf batch batch.reference.stop := by
    unfold Grouping.under batchesOf
    rw [List.filter_map]
    rfl
  exact Spans.of_joined (under ▸ he)

theorem Surveyed.nodup {walk : Walk} {inside past : List IndexedBatch}
    (h : Surveyed p walk inside past) : (walk.seen.map Extent.object).Nodup := by
  rw [h.seen]
  exact Grouping.nodup_collect Extent.object_absorb _

theorem Surveyed.resident {walk : Walk} {inside past : List IndexedBatch}
    (h : Surveyed p walk inside past) {batch : IndexedBatch} (hb : batch ∈ inside ++ past) :
    batch ∈ p.resident := by
  obtain ⟨rest, sees⟩ := h.sees
  have ahead : batch ∈ Paged.from_ (ObjectRef.stop ∘ IndexedBatch.reference) p.resident walk.start :=
    sees.split ▸ List.mem_append_left _ hb
  exact List.mem_of_mem_filter ahead

theorem Surveyed.wide {walk : Walk} {inside past : List IndexedBatch}
    (h : Surveyed p walk inside past) (wf : p.WF) : ∀ e ∈ walk.seen, e.firstBase < e.lastEnd := by
  intro e he
  obtain ⟨x, hx, first⟩ := (h.spans he).first
  have inner := ((h.spans he).bounds x hx).2
  obtain ⟨batch, hbatch, rfl⟩ := List.mem_map.mp hx
  obtain ⟨low, tiles⟩ := wf.tiles
  have width := (tiles.bounds (mem_refs_of_resident
    (h.resident (List.mem_of_mem_filter hbatch)))).2.1
  change batch.reference.baseOffset = e.firstBase at first
  change batch.reference.stop ≤ e.lastEnd at inner
  omega

abbrev surveyedNone (start stop : Nat) : ReadAmp :=
  Walk.finish { start := start, stop := stop }

theorem survey_over {start stop : Nat} (past : stop ≤ start) :
    survey s key start stop = .ok (surveyedNone start stop) := by
  have walks := @Paged.walk_over _ _ _ (fun cursor => s.findBatches key cursor u64Max) Walk.visit
    stop (stop - start) start past { start := start, stop := stop }
  have probed : probe s key { start := start, stop := stop } =
      .ok { start := start, stop := stop } :=
    if_neg fun both => absurd both.1 (Nat.not_lt.mpr past)
  unfold survey
  rw [probed, bind_ok, walks]
  rfl

theorem survey_unknown (unknown : s.partition key = none) (start stop : Nat) :
    survey s key start stop = .ok (surveyedNone start stop) := by
  rcases Nat.lt_or_ge start stop with range | past
  · have nothing : ∀ cursor, s.findBatches key cursor u64Max = .ok [] := by
      intro cursor
      unfold IndexState.findBatches
      rw [unknown]
    have probed : probe s key { start := start, stop := stop } =
        .ok { start := start, stop := stop } := by
      unfold probe lookBelow
      rw [nothing, bind_ok]
      split <;> rfl
    obtain ⟨fuel, hfuel⟩ : ∃ fuel, stop - start = fuel + 1 := ⟨stop - start - 1, by omega⟩
    unfold survey
    rw [probed, bind_ok, hfuel]
    unfold Paged.walk
    rw [if_pos range, nothing]
    rfl
  · exact survey_over past

/-- Below the log start a survey is refused, by the probe or by the walk's first page. -/
theorem survey_below (held : s.partition key = some p) {start stop : Nat} (range : start < stop)
    (below : start < p.logStart) :
    survey s key start stop = .error (.belowLogStart start p.logStart) := by
  have refused : ∀ cursor, cursor < p.logStart →
      s.findBatches key cursor u64Max = .error (.belowLogStart cursor p.logStart) := by
    intro cursor below
    rw [IndexState.findBatches_of_held held]
    exact if_pos below
  unfold survey probe
  dsimp only
  by_cases zero : 0 < start
  · rw [if_pos ⟨range, zero⟩]
    unfold lookBelow
    rw [refused (start - 1) (by omega)]
    dsimp only
    rw [refused start below]
    rfl
  · obtain ⟨fuel, hfuel⟩ : ∃ fuel, stop - start = fuel + 1 := ⟨stop - start - 1, by omega⟩
    rw [if_neg fun both => zero both.2, hfuel]
    unfold Paged.walk
    rw [pure_bind, if_pos range, refused start below]
    rfl

theorem survey_covered {start stop : Nat} {amp : ReadAmp} (h : survey s key start stop = .ok amp)
    (covered : amp.covered ≠ none) :
    start < stop ∧ ∃ p, s.partition key = some p ∧ p.logStart ≤ start := by
  have range : start < stop := by
    by_contra past
    rw [survey_over (Nat.le_of_not_lt past)] at h
    cases h
    exact covered rfl
  refine ⟨range, ?_⟩
  cases held : s.partition key with
  | none =>
    rw [survey_unknown held] at h
    cases h
    exact absurd rfl covered
  | some p =>
    refine ⟨p, rfl, ?_⟩
    by_contra below
    rw [survey_below held range (Nat.lt_of_not_le below)] at h
    cases h

/-- A measurement never fails: below the log start it is made from the log start on. -/
theorem readAmp_total (wf : ∀ key p, s.partition key = some p → p.WF) (start stop : Nat) :
    ∃ amp, readAmp s key start stop = .ok amp := by
  unfold readAmp
  cases held : s.partition key with
  | none => exact ⟨_, by rw [survey_unknown held]⟩
  | some p =>
    have above : ∀ begins, p.logStart ≤ begins →
        ∃ amp, survey s key begins stop = .ok amp := by
      intro begins started
      rcases Nat.lt_or_ge begins stop with range | past
      · obtain ⟨walk, -, -, surveyed, -⟩ := survey_eq held (wf _ p held) started range
        exact ⟨_, surveyed⟩
      · exact ⟨_, survey_over past⟩
    rcases Nat.lt_or_ge start p.logStart with below | started
    · rcases Nat.lt_or_ge start stop with range | past
      · rw [survey_below held range below]
        dsimp only
        rw [if_pos below]
        exact above _ (Nat.le_refl _)
      · exact ⟨_, by rw [survey_over past]⟩
    · obtain ⟨amp, surveyed⟩ := above start started
      exact ⟨amp, by rw [surveyed]⟩

theorem readAmp_covered {start stop : Nat} {amp : ReadAmp} (h : readAmp s key start stop = .ok amp)
    (covered : amp.covered ≠ none) : ∃ start' p, survey s key start' stop = .ok amp ∧
      start' < stop ∧ s.partition key = some p ∧ p.logStart ≤ start' := by
  have surveyed : ∃ start', survey s key start' stop = .ok amp := by
    unfold readAmp at h
    split at h
    · split at h
      · exact ⟨_, h⟩
      · cases h
    · exact ⟨start, h⟩
  obtain ⟨start', hsurvey⟩ := surveyed
  obtain ⟨range, p, held, started⟩ := survey_covered hsurvey covered
  exact ⟨start', p, hsurvey, range, held, started⟩

/-- The history a range holds. -/
def within (p : PartitionIndex) (start stop : Nat) : List ObjectRef :=
  p.history.filter fun r => decide (start ≤ r.baseOffset) && decide (r.stop ≤ stop)

theorem mem_within {start stop : Nat} {r : ObjectRef} :
    r ∈ within p start stop ↔ r ∈ p.history ∧ start ≤ r.baseOffset ∧ r.stop ≤ stop := by
  simp [within]

/-- The references of one object, of some. -/
def refsOf (refs : List ObjectRef) (object : ObjectKey) : List ObjectRef :=
  refs.filter fun r => decide (r.object = object)

theorem mem_refsOf {refs : List ObjectRef} {object : ObjectKey} {r : ObjectRef} :
    r ∈ refsOf refs object ↔ r ∈ refs ∧ r.object = object := by
  simp [refsOf]

/-- An object's extent over the references it has in a range. -/
structure Extent.Over (e : Extent) (refs : List ObjectRef) : Prop where
  first : ∃ r ∈ refsOf refs e.object, r.baseOffset = e.firstBase
  last : ∃ r ∈ refsOf refs e.object, r.stop = e.lastEnd
  bounds : ∀ r ∈ refsOf refs e.object, e.firstBase ≤ r.baseOffset ∧ r.stop ≤ e.lastEnd
  records : e.records = ((refsOf refs e.object).map ObjectRef.recordCount).sum

/-- What a plan's range holds: a block of history, and the extents of more objects
than the threshold, which tile it and hold no more than the budget. -/
structure PlannedRange (p : PartitionIndex) (plan : CompactionPlan) : Prop where
  started : p.logStart ≤ plan.start
  range : plan.start < plan.stop
  block : ∃ before after, p.history = before ++ within p plan.start plan.stop ++ after
  tiles : RefTiles (within p plan.start plan.stop) plan.start plan.stop
  objects : ∃ extents, ExtentTiles extents plan.start plan.stop ∧
    (extents.map Extent.object).Nodup ∧ compactionReadAmpThreshold < extents.length ∧
    (extents.map Extent.records).sum ≤ compactionPlanRecordsBudget ∧
    ∀ e ∈ extents, e.Over (within p plan.start plan.stop)

/-- From where one history entry begins to where another ends, history is a block of
entries that tile that range. -/
theorem within_block (wf : p.WF) {x y : ObjectRef} (hx : x ∈ p.history) (hy : y ∈ p.history)
    (lt : x.baseOffset < y.stop) :
    (∃ before after, p.history = before ++ within p x.baseOffset y.stop ++ after) ∧
      RefTiles (within p x.baseOffset y.stop) x.baseOffset y.stop := by
  obtain ⟨first, tiles⟩ := wf.tiles
  obtain ⟨middle, hhistory, -⟩ := Tiles.append_iff.mp tiles
  obtain ⟨before, block, after, hsplit, hblock⟩ := hhistory.block hx hy lt
  have some : block ≠ [] := by
    rintro rfl
    exact absurd hblock (Nat.ne_of_lt lt)
  have inside : ∀ r ∈ p.history, r ∈ block ↔ x.baseOffset ≤ r.baseOffset ∧ r.stop ≤ y.stop := by
    intro r hr
    rw [hsplit] at hhistory hr
    exact hhistory.mem_block hblock some hr
  have same : within p x.baseOffset y.stop = block := by
    have nodup := hhistory.nodup
    have keep : ∀ r ∈ block, (decide (x.baseOffset ≤ r.baseOffset) && decide (r.stop ≤ y.stop)) =
        true := by
      intro r hr
      have := (inside r (hsplit ▸ by simp [hr])).mp hr
      simpa using this
    have drop : ∀ r, r ∈ before ∨ r ∈ after → ¬(decide (x.baseOffset ≤ r.baseOffset) &&
        decide (r.stop ≤ y.stop)) = true := by
      intro r hr kept
      have among : r ∈ p.history := by
        rw [hsplit]
        rcases hr with hr | hr <;> simp [hr]
      have hblockr := (inside r among).mpr (by simpa using kept)
      rw [hsplit, List.append_assoc] at nodup
      rcases hr with hr | hr
      · exact List.disjoint_of_nodup_append nodup hr (List.mem_append_left _ hblockr)
      · exact List.disjoint_of_nodup_append (List.nodup_append.mp nodup).2.1 hblockr hr
    unfold within
    rw [hsplit, List.filter_append, List.filter_append, List.filter_eq_self.mpr keep,
      List.filter_eq_nil_iff.mpr fun r hr => drop r (.inl hr),
      List.filter_eq_nil_iff.mpr fun r hr => drop r (.inr hr), List.nil_append, List.append_nil]
  rw [same]
  exact ⟨⟨before, after, hsplit⟩, hblock⟩

theorem Surveyed.sublist {walk : Walk} {inside past : List IndexedBatch}
    (h : Surveyed p walk inside past) : (inside ++ past).Sublist p.resident := by
  obtain ⟨rest, sees⟩ := h.sees
  refine List.Sublist.trans ?_ (List.filter_sublist (p := fun batch =>
    decide (walk.start < (ObjectRef.stop ∘ IndexedBatch.reference) batch)))
  change (inside ++ past).Sublist (Paged.from_ _ p.resident walk.start)
  rw [sees.split]
  exact List.sublist_append_left _ _

/-- An object seen wholly in history, inside a range the survey covers, is folded from
the references it has there. -/
theorem Surveyed.over {walk : Walk} {inside past : List IndexedBatch}
    (h : Surveyed p walk inside past) (wf : p.WF) {e : Extent} (he : e ∈ walk.seen)
    (history : e.tail = false) {low high : Nat} (started : walk.start ≤ low)
    (ended : high ≤ walk.stop) (above : low ≤ e.firstBase) (below : e.lastEnd ≤ high) :
    e.Over (within p low high) := by
  have spans := h.spans he
  obtain ⟨origin, tiles⟩ := wf.tiles
  have footer : ∀ batch ∈ batchesOf (inside ++ past) e.object, batch.reference ∈ p.history := by
    intro batch hbatch
    have cold : batch.bytes.isSome = false :=
      spans.tail history _ (List.mem_map_of_mem (f := fun batch =>
        walk.extentOf batch batch.reference.stop) hbatch)
    have resident := h.resident (List.mem_of_mem_filter hbatch)
    rcases List.mem_append.mp resident with hb | hb
    · obtain ⟨r, hr, rfl⟩ := List.mem_map.mp hb
      exact hr
    · obtain ⟨entry, -, rfl⟩ := List.mem_map.mp hb
      cases cold
  have bounds : ∀ batch ∈ batchesOf (inside ++ past) e.object,
      e.firstBase ≤ batch.reference.baseOffset ∧ batch.reference.stop ≤ e.lastEnd :=
    fun batch hbatch => spans.bounds _ (List.mem_map_of_mem (f := fun batch =>
      walk.extentOf batch batch.reference.stop) hbatch)
  have same : ∀ r, r ∈ (batchesOf (inside ++ past) e.object).map IndexedBatch.reference ↔
      r ∈ refsOf (within p low high) e.object := by
    intro r
    rw [mem_refsOf, mem_within]
    constructor
    · intro hr
      obtain ⟨batch, hbatch, rfl⟩ := List.mem_map.mp hr
      have inner := bounds batch hbatch
      exact ⟨⟨footer batch hbatch, by omega, by omega⟩, by simpa using (List.mem_filter.mp hbatch).2⟩
    · rintro ⟨⟨hr, lower, upper⟩, object⟩
      have width := (tiles.bounds (mem_refs_of_history hr)).2.1
      obtain ⟨rest, sees⟩ := h.sees
      have ahead : IndexedBatch.footer r ∈
          Paged.from_ (ObjectRef.stop ∘ IndexedBatch.reference) p.resident walk.start := by
        refine List.mem_filter.mpr ⟨List.mem_append_left _ (List.mem_map_of_mem hr), ?_⟩
        have reach : walk.start < r.stop := by omega
        exact decide_eq_true reach
      have within := sees.mem_inside ahead (show r.baseOffset < walk.stop by omega)
      refine List.mem_map.mpr ⟨.footer r, List.mem_filter.mpr ⟨List.mem_append_left _ within, ?_⟩, rfl⟩
      exact decide_eq_true object
  have nodup : ((batchesOf (inside ++ past) e.object).map IndexedBatch.reference).Nodup := by
    have sub : ((batchesOf (inside ++ past) e.object).map IndexedBatch.reference).Sublist p.refs := by
      rw [← p.resident_reference]
      exact (List.filter_sublist.trans h.sublist).map _
    exact tiles.nodup.sublist sub
  have nodup' : (refsOf (within p low high) e.object).Nodup :=
    (tiles.nodup.sublist (List.sublist_append_left _ _)).filter _ |>.filter _
  have perm := (List.perm_ext_iff_of_nodup nodup nodup').mpr same
  exact {
    first := by
      obtain ⟨x, hx, first⟩ := spans.first
      obtain ⟨batch, hbatch, rfl⟩ := List.mem_map.mp hx
      exact ⟨batch.reference, (same _).mp (List.mem_map_of_mem hbatch), first⟩
    last := by
      obtain ⟨x, hx, last⟩ := spans.last
      obtain ⟨batch, hbatch, rfl⟩ := List.mem_map.mp hx
      exact ⟨batch.reference, (same _).mp (List.mem_map_of_mem hbatch), last⟩
    bounds := by
      intro r hr
      obtain ⟨batch, hbatch, rfl⟩ := List.mem_map.mp ((same r).mpr hr)
      exact bounds batch hbatch
    records := by
      rw [spans.records, ← (perm.map ObjectRef.recordCount).sum_eq, List.map_map, List.map_map]
      congr 1
      refine List.map_congr_left fun batch _ => ?_
      simp [Walk.extentOf, ObjectRef.stop] }

theorem mem_sublist_whole {walk : Walk} {taken : List Extent}
    (sub : taken.Sublist (walk.seen.filter fun e => e.whole && !walk.barred.contains e.object))
    {e : Extent} (he : e ∈ taken) : e ∈ walk.seen ∧ e.whole = true := by
  obtain ⟨seen, kept⟩ := List.mem_filter.mp (sub.subset he)
  exact ⟨seen, (Bool.and_eq_true_iff.mp kept).1⟩

theorem Surveyed.whole {walk : Walk} {inside past : List IndexedBatch}
    (h : Surveyed p walk inside past) {e : Extent} (he : e ∈ walk.seen) (whole : e.whole = true) :
    walk.start ≤ e.firstBase ∧ e.lastEnd ≤ walk.stop := by
  have spans := h.spans he
  have inner : ∀ x ∈ (batchesOf (inside ++ past) e.object).map
      (fun batch => walk.extentOf batch batch.reference.stop),
      walk.start ≤ x.firstBase ∧ x.lastEnd ≤ walk.stop := by
    intro x hx
    have := spans.whole whole x hx
    obtain ⟨batch, -, rfl⟩ := List.mem_map.mp hx
    simp only [Walk.extentOf, Bool.and_eq_true, decide_eq_true_eq] at this
    exact ⟨this.1.2, this.2⟩
  obtain ⟨x, hx, first⟩ := spans.first
  obtain ⟨y, hy, last⟩ := spans.last
  have lower := (inner x hx).1
  have upper := (inner y hy).2
  omega

theorem ends_of_extents {low high : Nat} {extents : List Extent} (tiles : ExtentTiles extents low high)
    (some : extents ≠ []) (each : ∀ e ∈ extents, e.Over (within p low high)) :
    ∃ x ∈ p.history, ∃ y ∈ p.history, x.baseOffset = low ∧ y.stop = high := by
  obtain ⟨x, hx, first⟩ := (each _ (List.head_mem some)).first
  obtain ⟨y, hy, last⟩ := (each _ (List.getLast_mem some)).last
  refine ⟨x, (mem_within.mp (mem_refsOf.mp hx).1).1, y, (mem_within.mp (mem_refsOf.mp hy).1).1, ?_, ?_⟩
  · rw [first]
    exact tiles.head_lo (List.head?_eq_some_head some)
  · rw [last]
    exact tiles.getLast_hi (List.getLast?_eq_some_getLast some)

/-- The history objects of a measured run are those of a planned range. -/
theorem Surveyed.plannedRange {walk : Walk} {inside past : List IndexedBatch}
    (h : Surveyed p walk inside past) (wf : p.WF) (started : p.logStart ≤ walk.start)
    {plan : CompactionPlan} {front rest : List Extent}
    (sub : (front ++ rest).Sublist
      (walk.seen.filter fun e => e.whole && !walk.barred.contains e.object))
    (tiles : ExtentTiles front plan.start plan.stop) (history : ∀ e ∈ front, e.tail = false)
    (many : compactionReadAmpThreshold < front.length)
    (fits : (front.map Extent.records).sum ≤ compactionPlanRecordsBudget) : PlannedRange p plan := by
  have some : front ≠ [] := by
    rintro rfl
    exact absurd many (Nat.not_lt_zero _)
  have whole : ∀ e ∈ front, e ∈ walk.seen ∧ e.whole = true :=
    fun e he => mem_sublist_whole sub (List.mem_append_left _ he)
  have lower : walk.start ≤ plan.start := by
    obtain ⟨seen, all⟩ := whole _ (List.head_mem some)
    have := (h.whole seen all).1
    have first : (front.head some).firstBase = plan.start :=
      tiles.head_lo (List.head?_eq_some_head some)
    omega
  have upper : plan.stop ≤ walk.stop := by
    obtain ⟨seen, all⟩ := whole _ (List.getLast_mem some)
    have := (h.whole seen all).2
    have last : (front.getLast some).lastEnd = plan.stop :=
      tiles.getLast_hi (List.getLast?_eq_some_getLast some)
    omega
  have each : ∀ e ∈ front, e.Over (within p plan.start plan.stop) := by
    intro e he
    have bounds := tiles.bounds he
    exact h.over wf (whole e he).1 (history e he) lower upper bounds.1 bounds.2.2
  have range : plan.start < plan.stop := by
    have bounds := tiles.bounds (List.head_mem some)
    omega
  obtain ⟨x, hx, y, hy, first, last⟩ := ends_of_extents tiles some each
  have block := within_block wf hx hy (by omega)
  rw [first, last] at block
  have nodup : (front.map Extent.object).Nodup := by
    have inner := ((List.sublist_append_left front rest).trans sub).trans List.filter_sublist
    exact h.nodup.sublist (inner.map _)
  exact {
    started := le_trans started lower
    range := range
    block := block.1
    tiles := block.2
    objects := ⟨front, tiles, nodup, many, fits, each⟩ }

/-- What is covered once the tail is cut off is the run's history. -/
theorem Measures.amplification {walk : Walk} {front back : List Extent} {low middle high : Nat}
    (m : Measures (walk.runFrom walk.seen {}) front back low middle high) {a b : Nat}
    (covered : walk.finish.plannable.covered = some (a, b)) :
    a = low ∧ b = middle ∧ walk.finish.plannable.objectsTouched = front.length ∧
      walk.finish.plannable.records = (front.map Extent.records).sum := by
  have tail : walk.finish.firstTailBase = if back = [] then none else some middle := m.firstTail
  have all : walk.finish.covered = if front ++ back = [] then none else some (low, high) := m.covered
  by_cases none : back = []
  · subst none
    have same : walk.finish.plannable = walk.finish := if_pos tail
    have ends : middle = high := m.back_tiles
    have objects := m.objects
    have records := m.records
    rw [List.append_nil] at all objects records
    rw [same, all] at covered
    rw [same]
    split at covered
    · cases covered
    · cases covered
      exact ⟨rfl, ends.symm, objects, records⟩
  · rw [if_neg none] at tail
    have cut : walk.finish.plannable = walk.finish.beforeTail := by
      refine if_neg ?_
      rw [tail]
      exact Option.some_ne_none _
    have some : front ++ back ≠ [] := fun h => none (List.append_eq_nil_iff.mp h).2
    rw [if_neg some] at all
    rw [cut] at covered ⊢
    simp only [ReadAmp.beforeTail, all, tail] at covered
    split at covered
    · cases covered
      exact ⟨rfl, rfl, m.historyObjects, m.historyRecords⟩
    · cases covered

theorem covered_of_amplification {surveyed : ReadAmp} {range : Nat × Nat}
    (covered : surveyed.plannable.covered = some range) : surveyed.covered ≠ none := by
  intro nothing
  unfold ReadAmp.plannable at covered
  split at covered
  · rw [nothing] at covered
    cases covered
  · simp only [ReadAmp.beforeTail, nothing] at covered
    cases covered

/-- Every plan is over a block of its partition's history. -/
theorem planned_range {topic : TopicId} {partition start stop : Nat} {planned : CompactionPlan}
    (wf : ∀ key p, s.partition key = some p → p.WF)
    (h : plan s topic partition start stop = .ok (.planned planned)) :
    planned.key = (topic, partition) ∧
      ∃ p, s.partition planned.key = some p ∧ PlannedRange p planned := by
  unfold plan at h
  rw [bind_eq_ok] at h
  obtain ⟨surveyed, hread, h⟩ := h
  dsimp only at h
  split at h
  · cases h
  · rename_i low high hcovered
    split at h
    · cases h
    · rename_i exceeds
      split at h
      · cases h
      · rename_i affordable
        cases h
        refine ⟨rfl, ?_⟩
        obtain ⟨start', p, hsurvey, range, held, started⟩ :=
          readAmp_covered hread (covered_of_amplification hcovered)
        obtain ⟨walk, inside, past, hwalk, rfl, rfl, folded⟩ := survey_eq held (wf _ p held) started range
        obtain rfl : surveyed = walk.finish := Except.ok.inj (hsurvey.symm.trans hwalk)
        obtain ⟨front, back, low', middle, high', taken, m, hsplit, sub⟩ :=
          (Measures.empty 0).runFrom (folded.wide (wf _ p held))
        obtain ⟨rfl, rfl, objects, records⟩ := m.amplification hcovered
        have among : (front ++ back).Sublist
            (walk.seen.filter fun e => e.whole && !walk.barred.contains e.object) := by
          rw [hsplit]
          exact sub
        refine ⟨p, held, folded.plannedRange (wf _ p held) started among m.front_tiles m.history ?_ ?_⟩
        · simp only [ReadAmp.exceeds, Bool.not_eq_true', Bool.not_eq_false, Bool.and_eq_true,
            decide_eq_true_eq] at exceeds
          rw [← objects]
          have := Nat.le_mul_of_pos_right compactionReadAmpThreshold
            (Nat.pos_of_ne_zero exceeds.1)
          omega
        · simp only [CostEstimate.withinBudget, CostEstimate.of, Bool.not_eq_true',
            Bool.not_eq_false] at affordable
          rw [← records]
          exact of_decide_eq_true affordable

end Oqueue.Compact
