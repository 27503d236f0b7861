import Oqueue.Index.State

/-!
# What one event does to one partition

Staged commits land as one block of pushes; an effect is applied to a partition
as it stands. Both are stated once here: when they are accepted, what they keep,
and what they do to the references the partition holds.
-/

namespace Oqueue

open Checked Tiling

namespace PartitionIndex

theorem push_with (p : PartitionIndex) (stop : Nat) (when : Option TimeSpan) (entry : TailEntry) :
    { p with endOffset := stop, when := when }.push entry =
      { p.push entry with endOffset := stop, when := when } := by
  unfold push
  dsimp only
  split
  · split <;> rfl
  · rfl

theorem foldl_push_with (entries : List TailEntry) (p : PartitionIndex) (stop : Nat)
    (when : Option TimeSpan) :
    entries.foldl push { p with endOffset := stop, when := when } =
      { entries.foldl push p with endOffset := stop, when := when } := by
  induction entries generalizing p with
  | nil => rfl
  | cons entry rest ih =>
    rw [List.foldl_cons, push_with, ih]
    rfl

theorem foldl_push_frame (entries : List TailEntry) (p : PartitionIndex) :
    (entries.foldl push p).endOffset = p.endOffset ∧ (entries.foldl push p).when = p.when ∧
      (entries.foldl push p).manifest = p.manifest ∧
      (entries.foldl push p).logStart = p.logStart := by
  induction entries generalizing p with
  | nil => exact ⟨rfl, rfl, rfl, rfl⟩
  | cons entry rest ih =>
    rw [List.foldl_cons]
    obtain ⟨h₁, h₂, h₃, h₄⟩ := ih (p.push entry)
    rw [h₁, h₂, h₃, h₄]
    simp

theorem refs_foldl_push (entries : List TailEntry) (p : PartitionIndex) :
    (entries.foldl push p).refs = p.refs ++ entries.map TailEntry.reference := by
  induction entries generalizing p with
  | nil => simp
  | cons entry rest ih => rw [List.foldl_cons, ih, refs_push, List.map_cons, List.append_assoc,
      List.singleton_append]

theorem foldl_push_window (entries : List TailEntry) {p : PartitionIndex}
    (window : p.tail.length ≤ tailWindowEntries)
    (full : p.history ≠ [] → p.tail.length = tailWindowEntries) :
    (entries.foldl push p).tail.length ≤ tailWindowEntries ∧
      ((entries.foldl push p).history ≠ [] →
        (entries.foldl push p).tail.length = tailWindowEntries) := by
  induction entries generalizing p with
  | nil => exact ⟨window, full⟩
  | cons entry rest ih =>
    obtain ⟨window', full'⟩ := push_window window full entry
    exact ih window' full'

end PartitionIndex

open PartitionIndex IndexState

theorem landSpan_eq (slot : PartitionIndex) (span : StagedSpan) :
    landSpan slot span = { span.entries.foldl push slot with
      endOffset := span.stop
      when := some (slot.when.elim span.when fun held => held.widened span.when) } := by
  unfold landSpan PartitionIndex.observe
  dsimp only
  rw [foldl_push_with]

@[simp] theorem landSpan_endOffset (slot : PartitionIndex) (span : StagedSpan) :
    (landSpan slot span).endOffset = span.stop := by
  rw [landSpan_eq]

theorem refs_landSpan (slot : PartitionIndex) (span : StagedSpan) :
    (landSpan slot span).refs = slot.refs ++ span.entries.map TailEntry.reference := by
  rw [landSpan_eq, ← refs_foldl_push]
  rfl

theorem landSpan_landSpan (slot : PartitionIndex) (first second : StagedSpan) :
    landSpan (landSpan slot first) second =
      landSpan slot ⟨second.stop, first.entries ++ second.entries,
        first.when.widened second.when⟩ := by
  have times : some (((some (slot.when.elim first.when fun held => held.widened first.when)).elim
      second.when fun held => held.widened second.when)) =
      some (slot.when.elim (first.when.widened second.when)
        fun held => held.widened (first.when.widened second.when)) := by
    cases slot.when with
    | none => rfl
    | some held => simp [TimeSpan.widened_assoc]
  rw [landSpan_eq (landSpan slot first), landSpan_eq slot first, landSpan_eq slot,
    foldl_push_with]
  simp only [List.foldl_append, times]

/-- The entries a batch stages for a partition continue it from `base`. -/
structure StagedSpan.Continues (span : StagedSpan) (base : Nat) : Prop where
  nonempty : span.entries ≠ []
  tiles : RefTiles (span.entries.map TailEntry.reference) base span.stop
  fits : span.stop ≤ i64Max

theorem PartitionIndex.WF.landSpan {slot : PartitionIndex} (wf : slot.WF) {span : StagedSpan}
    (continues : span.Continues slot.endOffset) : (landSpan slot span).WF := by
  obtain ⟨window, full⟩ := foldl_push_window span.entries wf.window wf.full
  have extend : ∀ first, RefTiles slot.refs first slot.endOffset →
      RefTiles (IndexState.landSpan slot span).refs first span.stop := by
    intro first htiles
    rw [refs_landSpan]
    exact htiles.append continues.tiles
  obtain ⟨first, htiles⟩ := wf.tiles
  exact {
    tiles := ⟨first, by rw [landSpan_endOffset]; exact extend first htiles⟩
    fits := by rw [landSpan_endOffset]; exact continues.fits
    window := by rw [landSpan_eq]; exact window
    full := by rw [landSpan_eq]; exact full
    logStart_le := by
      rw [landSpan_eq]
      simp only [(foldl_push_frame span.entries slot).2.2.2]
      exact le_trans wf.logStart_le continues.tiles.le
    manifest_meets := by
      intro held hheld
      rw [landSpan_eq] at hheld
      simp only [(foldl_push_frame span.entries slot).2.2.1] at hheld
      rw [landSpan_endOffset]
      exact extend _ (wf.manifest_meets held hheld)
    reaches := by
      intro none
      rw [landSpan_eq] at none ⊢
      simp only [(foldl_push_frame span.entries slot).2.2.1] at none
      obtain ⟨first, inside, htiles⟩ := wf.reaches none
      refine ⟨first, ?_, ?_⟩
      · simp only [(foldl_push_frame span.entries slot).2.2.2]
        exact inside
      · rw [← landSpan_eq, landSpan_endOffset]
        exact extend first htiles }

theorem pushEntries_eq_ok {entries : List TailEntry} {slot : PartitionIndex} {stop : Nat}
    (tiles : RefTiles (entries.map TailEntry.reference) slot.endOffset stop)
    (fits : stop ≤ i64Max) :
    pushEntries slot entries = .ok { entries.foldl push slot with endOffset := stop } := by
  induction entries generalizing slot with
  | nil =>
    obtain rfl : slot.endOffset = stop := tiles
    rfl
  | cons entry rest ih =>
    obtain ⟨base, -, tiles⟩ := tiles
    have inside : entry.reference.stop ≤ i64Max := le_trans tiles.le fits
    rw [pushEntries, ObjectRef.endOffset_of_le inside, bind_ok]
    have pushed := @ih { slot.push entry with endOffset := entry.reference.stop } tiles
    have frame := foldl_push_with rest (slot.push entry) entry.reference.stop (slot.push entry).when
    have same := (foldl_push_frame rest (slot.push entry)).2.1
    rw [pushed, List.foldl_cons]
    simp only [push_frame] at frame same ⊢
    rw [frame]
    simp only [← same]

theorem checkHeld_eq_ok {slot : PartitionIndex} {key : PartitionKey} {retiring : List ObjectRef} :
    checkHeld slot key retiring = .ok () ↔ ∀ r ∈ retiring, slot.holdsInHistory r = true := by
  induction retiring with
  | nil => simp [checkHeld]
  | cons r rest ih =>
    unfold checkHeld
    split <;> simp_all

theorem applySwap_eq_ok {slot slot' : PartitionIndex} {key : PartitionKey}
    {retiring installing : List ObjectRef} :
    applySwap slot key retiring installing = .ok slot' ↔
      covers retiring installing = .ok () ∧ (∀ r ∈ retiring, slot.holdsInHistory r = true) ∧
        slot' = slot.replaceHistory retiring installing := by
  unfold applySwap
  constructor
  · intro h
    obtain ⟨_, hcovers, h⟩ := bind_eq_ok.mp h
    obtain ⟨_, hheld, h⟩ := bind_eq_ok.mp h
    cases h
    exact ⟨(accepts_mapError _).mp hcovers, checkHeld_eq_ok.mp hheld, rfl⟩
  · rintro ⟨hcovers, hheld, rfl⟩
    rw [(accepts_mapError _).mpr hcovers, bind_ok, checkHeld_eq_ok.mpr hheld]
    rfl

/-- Everything an accepted effect can do. -/
theorem applyEffect_cases {slot slot' : PartitionIndex} {key : PartitionKey} {effect : Effect}
    {changes : List RefChange} :
    applyEffect slot key effect = .ok (slot', changes) ↔
      (∃ manifest upto, effect = .published manifest upto ∧ slot.boundary upto = none ∧
        slot' = (slot.absorb manifest upto).2 ∧ changes = []) ∨
      (∃ retiring installing, effect = .swapped retiring installing ∧
        covers retiring installing = .ok () ∧ (∀ r ∈ retiring, slot.holdsInHistory r = true) ∧
        slot' = slot.replaceHistory retiring installing ∧
        changes = retiring.map (fun r => .dropped r.object) ++
          installing.map (fun r => .added r.object)) ∨
      (∃ start, effect = .trimmed start ∧ start ≤ slot.endOffset ∧ slot' = (slot.trim start).2 ∧
        changes = (slot.trim start).1.map .dropped) := by
  cases effect with
  | published manifest upto =>
    simp only [applyEffect]
    cases h : slot.boundary upto with
    | none =>
      constructor
      · intro accepted
        cases accepted
        exact .inl ⟨manifest, upto, rfl, h, rfl, rfl⟩
      · rintro (⟨_, _, same, -, rfl, rfl⟩ | ⟨_, _, same, -⟩ | ⟨_, same, -⟩) <;> cases same
        rfl
    | some expected => simp [h]
  | swapped retiring installing =>
    constructor
    · intro h
      obtain ⟨_, hswap, h⟩ := bind_eq_ok.mp h
      obtain ⟨hcovers, hheld, rfl⟩ := applySwap_eq_ok.mp hswap
      cases h
      exact .inr (.inl ⟨retiring, installing, rfl, hcovers, hheld, rfl, rfl⟩)
    · rintro (⟨_, _, h, -⟩ | ⟨_, _, h, hcovers, hheld, rfl, rfl⟩ | ⟨_, h, -⟩)
      · cases h
      · cases h
        exact bind_eq_ok.mpr ⟨_, applySwap_eq_ok.mpr ⟨hcovers, hheld, rfl⟩, rfl⟩
      · cases h
  | trimmed start =>
    simp only [applyEffect]
    split
    · rename_i past
      simp [past]
    · rename_i inside
      constructor
      · intro accepted
        cases accepted
        exact .inr (.inr ⟨start, rfl, Nat.not_lt.mp inside, rfl, rfl⟩)
      · rintro (⟨_, _, same, -⟩ | ⟨_, _, same, -⟩ | ⟨_, same, -, rfl, rfl⟩) <;> cases same
        rfl

theorem applyEffect_endOffset {slot slot' : PartitionIndex} {key : PartitionKey} {effect : Effect}
    {changes : List RefChange} (h : applyEffect slot key effect = .ok (slot', changes)) :
    slot'.endOffset = slot.endOffset := by
  obtain ⟨_, _, -, -, rfl, -⟩ | ⟨_, _, -, -, -, rfl, -⟩ | ⟨_, -, -, rfl, -⟩ :=
    applyEffect_cases.mp h
  · rfl
  · rfl
  · exact trim_endOffset ..

theorem PartitionIndex.WF.applyEffect {slot slot' : PartitionIndex} (wf : slot.WF)
    {key : PartitionKey} {effect : Effect} {changes : List RefChange}
    (h : Oqueue.applyEffect slot key effect = .ok (slot', changes)) : slot'.WF := by
  obtain ⟨_, _, -, meets, rfl, -⟩ | ⟨_, _, -, hcovers, hheld, rfl, -⟩ | ⟨_, -, inside, rfl, -⟩ :=
    applyEffect_cases.mp h
  · exact wf.absorb meets _
  · exact wf.replaceHistory hcovers hheld
  · exact wf.trim inside

theorem trim_observe (slot : PartitionIndex) (when : TimeSpan) (start : Nat) :
    (slot.observe when).trim start =
      ((slot.trim start).1, (slot.trim start).2.observe when) := by
  unfold PartitionIndex.trim PartitionIndex.observe
  dsimp only
  split <;> rfl

/-- An effect does not see the commit times. -/
theorem applyEffect_observe {slot slot' : PartitionIndex} {key : PartitionKey} {effect : Effect}
    {when : TimeSpan} {changes : List RefChange} :
    applyEffect (slot.observe when) key effect = .ok (slot', changes) ↔
      ∃ mid, applyEffect slot key effect = .ok (mid, changes) ∧ slot' = mid.observe when := by
  constructor
  · intro h
    obtain ⟨_, _, rfl, meets, rfl, rfl⟩ | ⟨_, _, rfl, hcovers, hheld, rfl, rfl⟩ |
      ⟨_, rfl, inside, rfl, rfl⟩ := applyEffect_cases.mp h
    · exact ⟨_, applyEffect_cases.mpr (.inl ⟨_, _, rfl, meets, rfl, rfl⟩), rfl⟩
    · exact ⟨_, applyEffect_cases.mpr (.inr (.inl ⟨_, _, rfl, hcovers, hheld, rfl, rfl⟩)), rfl⟩
    · refine ⟨_, applyEffect_cases.mpr (.inr (.inr ⟨_, rfl, inside, rfl, ?_⟩)), ?_⟩
      · rw [trim_observe]
      · rw [trim_observe]
  · rintro ⟨mid, h, rfl⟩
    obtain ⟨_, _, rfl, meets, rfl, rfl⟩ | ⟨_, _, rfl, hcovers, hheld, rfl, rfl⟩ |
      ⟨_, rfl, inside, rfl, rfl⟩ := applyEffect_cases.mp h
    · exact applyEffect_cases.mpr (.inl ⟨_, _, rfl, meets, rfl, rfl⟩)
    · exact applyEffect_cases.mpr (.inr (.inl ⟨_, _, rfl, hcovers, hheld, rfl, rfl⟩))
    · refine applyEffect_cases.mpr (.inr (.inr ⟨_, rfl, inside, ?_, ?_⟩))
      · rw [trim_observe]
      · rw [trim_observe]

end Oqueue
