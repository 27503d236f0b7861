import Oqueue.Index.State

/-!
# The fold in place

`apply` as the source writes it: one value that the method changes as it goes and
that keeps what was done to it when a step refuses. Every step that may refuse
comes before the first that changes anything, so a refusal finds the index as the
call did.
-/

namespace Oqueue

namespace IndexState

/-- A method on `&mut self` that may refuse; what it changed before it did stays changed. -/
abbrev InPlace (α : Type) := ExceptT Error (StateM IndexState) α

namespace InPlace

/-- `?` on a value computed from what is there. -/
def attempt {α : Type} (result : Except Error α) : InPlace α := ExceptT.mk (pure result)

def on {α : Type} (call : InPlace α) (s : IndexState) : Except Error α × IndexState :=
  (call.run.run s).run

section
variable {α β : Type} {first : InPlace α} {rest : α → InPlace β} {s t : IndexState}

theorem bind_error {e : Error} (h : first.on s = (.error e, t)) :
    (first >>= rest).on s = (.error e, t) := by
  simp only [on] at h
  simp [on, h]

theorem bind_ok {a : α} (h : first.on s = (.ok a, t)) :
    (first >>= rest).on s = (rest a).on t := by
  simp only [on] at h
  simp [on, h]

end

end InPlace

open InPlace

/-- The reading loop, against the index it finds at each entry. -/
def readInPlace (scratch : Option Nat × Batch) (entry : MetadataEntry) :
    InPlace (Option Nat × Batch) := do
  attempt ((← get).readEntry scratch entry)

/-- Lands one partition's commits, unless the projection holds them. -/
def landSpanInPlace (projected : Projected) (e : Sigma fun _ : PartitionKey => StagedSpan) :
    InPlace Unit := do
  if e.1 ∈ projected then return ()
  let slot := ((← get).partition e.1).getD {}
  modify fun self => self.install e.1 (landSpan slot e.2)

def landSlotInPlace (e : Sigma fun _ : PartitionKey => PartitionIndex) : InPlace Unit :=
  modify fun self => self.install e.1 e.2

def applyInPlace (entries : List MetadataEntry) : InPlace Unit := do
  let (previous, batch) ← entries.foldlM readInPlace ((← get).appliedUpto, {})
  let (projected, changes) ← attempt ((← get).project batch.effects batch.staged)
  attempt ((← get).checkQuota batch.staged projected)
  batch.staged.entries.forM (landSpanInPlace projected)
  projected.entries.forM landSlotInPlace
  modify fun self => { self with
    references := self.references.apply (changes ++ stagedChanges batch.staged) }
  modify fun self => { self with appliedUpto := previous }

theorem on_read (entries : List MetadataEntry) (scratch : Option Nat × Batch) (s : IndexState) :
    (entries.foldlM readInPlace scratch).on s = (entries.foldlM s.readEntry scratch, s) := by
  induction entries generalizing scratch with
  | nil => rfl
  | cons entry rest ih =>
    have once : (readInPlace scratch entry).on s = (s.readEntry scratch entry, s) := rfl
    rw [List.foldlM_cons, List.foldlM_cons]
    cases read : s.readEntry scratch entry with
    | error e =>
      rw [read] at once
      exact bind_error once
    | ok next =>
      rw [read] at once
      exact (bind_ok once).trans (ih next)

theorem on_forM {ι : Type} {body : ι → InPlace Unit} {change : IndexState → ι → IndexState}
    (once : ∀ i s, (body i).on s = (.ok (), change s i)) (l : List ι) (s : IndexState) :
    InPlace.on (l.forM body) s = (.ok (), l.foldl change s) := by
  induction l generalizing s with
  | nil => rfl
  | cons i rest ih => exact (bind_ok (once i s)).trans (ih (change s i))

theorem on_landSpan (projected : Projected) (e : Sigma fun _ : PartitionKey => StagedSpan)
    (s : IndexState) : (landSpanInPlace projected e).on s = (.ok (), if e.1 ∈ projected then s
      else s.install e.1 (landSpan ((s.partition e.1).getD {}) e.2)) := by
  by_cases held : e.1 ∈ projected
  · simp only [landSpanInPlace, held, if_true]
    rfl
  · simp only [landSpanInPlace, held, if_false]
    rfl

theorem land_references (s : IndexState) (staged : StagedSpans) (projected : Projected) :
    (s.land staged projected).references = s.references := by
  unfold land
  refine List.foldlRecOn (motive := fun t : IndexState => t.references = s.references)
    projected.entries _ ?_ fun t same e _ => same
  refine List.foldlRecOn (motive := fun t : IndexState => t.references = s.references)
    staged.entries _ rfl fun t same e _ => ?_
  split
  · exact same
  · exact same

theorem on_landing (batch : Batch) (projected : Projected) (changes : List RefChange)
    (previous : Option Nat) (s : IndexState) :
    InPlace.on (do
      batch.staged.entries.forM (landSpanInPlace projected)
      projected.entries.forM landSlotInPlace
      modify fun self => { self with
        references := self.references.apply (changes ++ stagedChanges batch.staged) }
      modify fun self => { self with appliedUpto := previous }) s =
    (.ok (), { s.land batch.staged projected with
      references := s.references.apply (changes ++ stagedChanges batch.staged)
      appliedUpto := previous }) := by
  have slots : ∀ e s, (landSlotInPlace e).on s = (.ok (), s.install e.1 e.2) := fun _ _ => rfl
  rw [bind_ok (on_forM (on_landSpan projected) _ s), bind_ok (on_forM slots _ _)]
  rw [← land_references s batch.staged projected]
  rfl

/-- In place or not, the fold takes the same pages to the same index; and where it
refuses one, the index in place is the one it was given. -/
theorem on_applyInPlace (entries : List MetadataEntry) (s : IndexState) :
    (applyInPlace entries).on s = match s.apply entries with
      | .error e => (.error e, s)
      | .ok t => (.ok (), t) := by
  unfold applyInPlace IndexState.apply
  rw [bind_ok (show InPlace.on get s = (.ok s, s) from rfl)]
  have read := on_read entries (s.appliedUpto, {}) s
  cases h : entries.foldlM s.readEntry (s.appliedUpto, {}) with
  | error e =>
    rw [h] at read
    exact bind_error read
  | ok scratch =>
    rw [h] at read
    rw [bind_ok read]
    obtain ⟨previous, batch⟩ := scratch
    dsimp only [Checked.bind_ok]
    rw [bind_ok (show InPlace.on get s = (.ok s, s) from rfl)]
    cases s.project batch.effects batch.staged with
    | error e => rfl
    | ok projection =>
      obtain ⟨projected, changes⟩ := projection
      dsimp only [Checked.bind_ok]
      rw [bind_ok (show (attempt _).on s = (.ok (projected, changes), s) from rfl)]
      rw [bind_ok (show InPlace.on get s = (.ok s, s) from rfl)]
      cases s.checkQuota batch.staged projected with
      | error e => rfl
      | ok _ => exact on_landing batch projected changes previous s

/-- A refused fold changes nothing, whatever refused it and wherever in the page. -/
theorem applyInPlace_refused {s t : IndexState} {entries : List MetadataEntry} {e : Error}
    (refused : (applyInPlace entries).on s = (.error e, t)) : t = s := by
  rw [on_applyInPlace] at refused
  split at refused
  · exact (congrArg Prod.snd refused).symm
  · cases congrArg Prod.fst refused

/-- A page whose commit is good and whose trim, after it, is past the end. -/
def trimmedPastEnd : List MetadataEntry :=
  [⟨0, .batchCommitted ⟨"a"⟩ [⟨⟨"t"⟩, 0, 2, .full, none⟩] 5⟩, ⟨1, .trimmed ⟨"t"⟩ 0 3⟩]

theorem applyInPlace_refused_trimmedPastEnd : ∃ e t,
    (applyInPlace trimmedPastEnd).on IndexState.new = (.error e, t) ∧ t = IndexState.new := by
  refine ⟨.trimPastEnd "t" 0 3 2, _, rfl, ?_⟩
  exact @applyInPlace_refused IndexState.new _ trimmedPastEnd _ rfl

end IndexState

end Oqueue
