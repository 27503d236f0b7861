import Oqueue.Core.Record
import Oqueue.Library.Tiling

/-!
# What a swap installs must cover what it retires

`contiguousSpan` sorts a copy of the references and walks it once; a gap, an
overlap or an empty reference is refused. What it accepts is a tiling of the
range it answers with, which is all the fold needs to know.
-/

namespace Oqueue

open Checked Tiling

/-- References tile a range of one partition's offsets. -/
abbrev RefTiles (refs : List ObjectRef) (a b : Nat) : Prop :=
  Tiles ObjectRef.baseOffset ObjectRef.stop refs a b

def sortByBase (refs : List ObjectRef) : List ObjectRef :=
  refs.insertionSort (fun x y => x.baseOffset ≤ y.baseOffset)

/-- The walk of `contiguousSpan` over the sorted references. -/
def contiguousWalk : List ObjectRef → Option (Nat × Nat) →
    Except Error (Option (Nat × Nat))
  | [], span => .ok span
  | reference :: rest, span => do
    let base := reference.baseOffset
    let stop ← reference.endOffset
    if stop = base then .error .indexObjectMismatch
    else match span with
      | none => contiguousWalk rest (some (base, stop))
      | some (low, high) =>
        if base ≠ high then .error .indexObjectMismatch
        else contiguousWalk rest (some (low, stop))

def contiguousSpan (refs : List ObjectRef) : Except Error (Option (Nat × Nat)) :=
  contiguousWalk (sortByBase refs) none

/-- Refuses a swap whose outputs do not cover its inputs. -/
def covers (retiring installing : List ObjectRef) : Except Error Unit := do
  let retired ← contiguousSpan retiring
  let installed ← contiguousSpan installing
  match retired, installed with
  | some from_, some to_ => if from_ = to_ then .ok () else .error .indexObjectMismatch
  | _, _ => .error .indexObjectMismatch

theorem contiguousWalk_some {refs : List ObjectRef} {low high : Nat}
    {span : Option (Nat × Nat)}
    (h : contiguousWalk refs (some (low, high)) = .ok span) :
    ∃ stop, span = some (low, stop) ∧ RefTiles refs high stop ∧
      ∀ r ∈ refs, r.stop ≤ i64Max := by
  induction refs generalizing high with
  | nil =>
    simp only [contiguousWalk, Except.ok.injEq] at h
    exact ⟨high, h.symm, rfl, by simp⟩
  | cons r rest ih =>
    simp only [contiguousWalk, bind_eq_ok, ObjectRef.endOffset_eq_ok] at h
    obtain ⟨_, ⟨rfl, fits⟩, h⟩ := h
    split at h
    · simp at h
    · rename_i nonempty
      split at h
      · simp at h
      · rename_i meets
        simp only [ne_eq, not_not] at meets
        obtain ⟨stop, hspan, htiles, hfits⟩ := ih h
        refine ⟨stop, hspan, ⟨meets, ?_, htiles⟩, ?_⟩
        · simp only [ObjectRef.stop] at nonempty ⊢
          omega
        · simpa using ⟨fits, hfits⟩

theorem contiguousWalk_none {refs : List ObjectRef} {low high : Nat}
    (h : contiguousWalk refs none = .ok (some (low, high))) :
    refs ≠ [] ∧ RefTiles refs low high ∧ ∀ r ∈ refs, r.stop ≤ i64Max := by
  cases refs with
  | nil => simp [contiguousWalk] at h
  | cons r rest =>
    simp only [contiguousWalk, bind_eq_ok, ObjectRef.endOffset_eq_ok] at h
    obtain ⟨_, ⟨rfl, fits⟩, h⟩ := h
    split at h
    · simp at h
    · rename_i nonempty
      obtain ⟨stop, hspan, htiles, hfits⟩ := contiguousWalk_some h
      simp only [Option.some.injEq, Prod.mk.injEq] at hspan
      obtain ⟨rfl, rfl⟩ := hspan
      refine ⟨by simp, ⟨rfl, ?_, htiles⟩, ?_⟩
      · simp only [ObjectRef.stop] at nonempty ⊢
        omega
      · simpa using ⟨fits, hfits⟩

theorem sortByBase_perm (refs : List ObjectRef) : (sortByBase refs).Perm refs :=
  List.perm_insertionSort _ _

theorem covers_eq_ok {retiring installing : List ObjectRef} (h : covers retiring installing = .ok ()) :
    ∃ low high, sortByBase retiring ≠ [] ∧
      RefTiles (sortByBase retiring) low high ∧ RefTiles (sortByBase installing) low high := by
  simp only [covers, bind_eq_ok] at h
  obtain ⟨retired, hretired, installed, hinstalled, h⟩ := h
  split at h
  · rename_i from_ to_
    split at h
    · rename_i same
      subst same
      obtain ⟨ne, htiles, -⟩ := contiguousWalk_none hretired
      exact ⟨_, _, ne, htiles, (contiguousWalk_none hinstalled).2.1⟩
    · simp at h
  · simp at h

theorem contiguousWalk_of_tiles {refs : List ObjectRef} {low high stop : Nat}
    (tiles : RefTiles refs high stop) (fits : ∀ r ∈ refs, r.stop ≤ i64Max) :
    contiguousWalk refs (some (low, high)) = .ok (some (low, stop)) := by
  induction refs generalizing high with
  | nil =>
    obtain rfl : high = stop := tiles
    rfl
  | cons r rest ih =>
    have begins : r.baseOffset = high := tiles.1
    have width := tiles.2.1
    unfold contiguousWalk
    rw [ObjectRef.endOffset_of_le (fits r (List.mem_cons_self ..)), bind_ok, if_neg (by omega)]
    dsimp only
    rw [if_neg (by simpa using begins)]
    exact ih tiles.2.2 fun x hx => fits x (List.mem_cons_of_mem _ hx)

theorem contiguousSpan_of_tiles {refs : List ObjectRef} {low high : Nat}
    (tiles : RefTiles (sortByBase refs) low high) (some_ : low < high) (fits : high ≤ i64Max) :
    contiguousSpan refs = .ok (some (low, high)) := by
  have within : ∀ r ∈ sortByBase refs, r.stop ≤ i64Max :=
    fun r hr => le_trans (tiles.bounds hr).2.2 fits
  unfold contiguousSpan
  cases hsorted : sortByBase refs with
  | nil =>
    rw [hsorted] at tiles
    exact absurd tiles (Nat.ne_of_lt some_)
  | cons r rest =>
    rw [hsorted] at tiles within
    have begins : r.baseOffset = low := tiles.1
    have width := tiles.2.1
    unfold contiguousWalk
    rw [ObjectRef.endOffset_of_le (within r (List.mem_cons_self ..)), bind_ok, if_neg (by omega)]
    rw [begins]
    exact contiguousWalk_of_tiles tiles.2.2 fun x hx => within x (List.mem_cons_of_mem _ hx)

theorem covers_of_tiles {retiring installing : List ObjectRef} {low high : Nat}
    (retired : RefTiles (sortByBase retiring) low high)
    (installed : RefTiles (sortByBase installing) low high) (some_ : low < high)
    (fits : high ≤ i64Max) : covers retiring installing = .ok () := by
  unfold covers
  rw [contiguousSpan_of_tiles retired some_ fits, contiguousSpan_of_tiles installed some_ fits,
    bind_ok, bind_ok]
  exact if_pos rfl

abbrev coveredBy (refs : List ObjectRef) (o : Nat) : Nat :=
  coverage ObjectRef.baseOffset ObjectRef.stop refs o

/-- No reference is empty, no offset is covered twice, and none between two that are covered
is left out. -/
abbrev RefsSeamless (refs : List ObjectRef) : Prop :=
  Seamless ObjectRef.baseOffset ObjectRef.stop refs

theorem sortByBase_sorted (refs : List ObjectRef) :
    (sortByBase refs).Pairwise fun x y => x.baseOffset ≤ y.baseOffset := by
  have total : Std.Total (fun x y : ObjectRef => x.baseOffset ≤ y.baseOffset) :=
    ⟨fun x y => Nat.le_total _ _⟩
  have trans : IsTrans ObjectRef (fun x y => x.baseOffset ≤ y.baseOffset) :=
    ⟨fun _ _ _ => Nat.le_trans⟩
  exact List.pairwise_insertionSort _ _

/-- A list has a span exactly when it covers one stretch of representable offsets. -/
theorem contiguousSpan_isSome {refs : List ObjectRef} :
    (∃ low high, contiguousSpan refs = .ok (some (low, high)) ∧
        RefTiles (sortByBase refs) low high ∧ low < high ∧ high ≤ i64Max) ↔
      refs ≠ [] ∧ RefsSeamless refs ∧ ∀ r ∈ refs, r.stop ≤ i64Max := by
  have perm := sortByBase_perm refs
  constructor
  · rintro ⟨low, high, -, tiles, some_, fits⟩
    refine ⟨?_, tiles.seamless.perm perm, fun r hr => ?_⟩
    · rintro rfl
      exact Nat.ne_of_lt some_ tiles
    · exact (tiles.bounds (perm.symm.subset hr)).2.2.trans fits
  · rintro ⟨some_, seamless, fits⟩
    have seamless' := seamless.perm perm.symm
    have sorted := sortByBase_sorted refs
    cases hsorted : sortByBase refs with
    | nil => exact absurd (List.perm_nil.mp (hsorted ▸ perm.symm)) some_
    | cons r rest =>
      rw [hsorted] at seamless' sorted
      obtain ⟨high, tiles⟩ := seamless'.tiles sorted
      have wide : r.baseOffset < high := by
        have := tiles.2.1
        have := tiles.2.2.le
        omega
      have below : high ≤ i64Max :=
        tiles.end_le (((Nat.le_add_right ..).trans (fits r (perm.subset (by simp [hsorted])))))
          fun x hx => fits x (perm.subset (hsorted ▸ hx))
      rw [← hsorted] at tiles
      exact ⟨_, high, contiguousSpan_of_tiles tiles wide below, by rw [← hsorted]; exact tiles,
        wide, below⟩

/-- A swap is accepted exactly when both sides cover the same representable offsets, each
offset once. -/
theorem covers_eq_ok_iff (retiring installing : List ObjectRef) :
    covers retiring installing = .ok () ↔
      (retiring ≠ [] ∧ installing ≠ [] ∧ RefsSeamless retiring ∧ RefsSeamless installing ∧
        ∀ o, 0 < coveredBy retiring o ↔ 0 < coveredBy installing o) ∧
      ∀ r ∈ retiring ++ installing, r.stop ≤ i64Max := by
  have points {refs : List ObjectRef} {low high : Nat} (tiles : RefTiles (sortByBase refs) low high)
      (o : Nat) : 0 < coveredBy refs o ↔ low ≤ o ∧ o < high := by
    rw [coveredBy, ← coverage_perm (sortByBase_perm refs), coverage_pos]
    exact (tiles.cover o).symm
  constructor
  · intro h
    have accepted := h
    unfold covers at accepted
    simp only [bind_eq_ok] at accepted
    obtain ⟨retired, hretired, installed, hinstalled, h⟩ := accepted
    split at h
    · rename_i from_ to_
      split at h
      · rename_i same
        subst same
        obtain ⟨low, high⟩ := from_
        obtain ⟨ne, tiles, fits⟩ := contiguousWalk_none hretired
        obtain ⟨ne', tiles', fits'⟩ := contiguousWalk_none hinstalled
        have held (refs : List ObjectRef) (ne : sortByBase refs ≠ []) : refs ≠ [] := by
          rintro rfl
          exact ne rfl
        refine ⟨⟨held _ ne, held _ ne', tiles.seamless.perm (sortByBase_perm _),
          tiles'.seamless.perm (sortByBase_perm _), fun o => ?_⟩, fun r hr => ?_⟩
        · rw [points tiles, points tiles']
        · rcases List.mem_append.mp hr with hr | hr
          · exact fits r ((sortByBase_perm _).symm.subset hr)
          · exact fits' r ((sortByBase_perm _).symm.subset hr)
      · cases h
    · cases h
  · rintro ⟨⟨some_, some_', seamless, seamless', same⟩, fits⟩
    obtain ⟨low, high, -, tiles, wide, below⟩ := contiguousSpan_isSome.mpr
      ⟨some_, seamless, fun r hr => fits r (List.mem_append_left _ hr)⟩
    obtain ⟨low', high', -, tiles', wide', -⟩ := contiguousSpan_isSome.mpr
      ⟨some_', seamless', fun r hr => fits r (List.mem_append_right _ hr)⟩
    have equal (o : Nat) : (low ≤ o ∧ o < high) ↔ (low' ≤ o ∧ o < high') := by
      rw [← points tiles, ← points tiles']
      exact same o
    have first := (equal low).mp ⟨Nat.le_refl _, wide⟩
    have first' := (equal low').mpr ⟨Nat.le_refl _, wide'⟩
    have last := (equal (high - 1)).mp (by omega)
    have last' := (equal (high' - 1)).mpr (by omega)
    obtain rfl : low' = low := by omega
    obtain rfl : high' = high := by omega
    exact covers_of_tiles tiles tiles' wide below

/-- Whether a swap is accepted does not depend on the order its references are given in, and
one whose ends leave the range of offsets is refused. -/
theorem covers_exact (retiring installing : List ObjectRef) :
    (covers retiring installing = .ok () ↔
      (retiring ≠ [] ∧ installing ≠ [] ∧ RefsSeamless retiring ∧ RefsSeamless installing ∧
        ∀ o, 0 < coveredBy retiring o ↔ 0 < coveredBy installing o) ∧
      ∀ r ∈ retiring ++ installing, r.stop ≤ i64Max) ∧
    (∀ retiring' installing', retiring'.Perm retiring → installing'.Perm installing →
      (covers retiring' installing' = .ok () ↔ covers retiring installing = .ok ())) ∧
    ((∃ r ∈ retiring ++ installing, i64Max < r.stop) →
      ∃ error, covers retiring installing = .error error) := by
  refine ⟨covers_eq_ok_iff retiring installing, ?_, ?_⟩
  · intro retiring' installing' perm perm'
    have some_ {refs refs' : List ObjectRef} (perm : refs'.Perm refs) : refs' ≠ [] ↔ refs ≠ [] :=
      not_congr ⟨fun h => List.perm_nil.mp (h ▸ perm.symm), fun h => List.perm_nil.mp (h ▸ perm)⟩
    have seamless {refs refs' : List ObjectRef} (perm : refs'.Perm refs) :
        RefsSeamless refs' ↔ RefsSeamless refs := ⟨fun h => h.perm perm, fun h => h.perm perm.symm⟩
    rw [covers_eq_ok_iff, covers_eq_ok_iff, some_ perm, some_ perm', seamless perm, seamless perm']
    simp only [coveredBy, coverage_perm perm, coverage_perm perm', (perm.append perm').mem_iff]
  · rintro ⟨r, hr, past⟩
    cases h : covers retiring installing with
    | error error => exact ⟨error, rfl⟩
    | ok _ =>
      have fits := ((covers_eq_ok_iff retiring installing).mp h).2 r hr
      exact absurd past (Nat.not_lt.mpr fits)

theorem covers_exact_swapped :
    covers [⟨⟨"b"⟩, 5, 2⟩, ⟨⟨"a"⟩, 3, 2⟩] [⟨⟨"m"⟩, 3, 4⟩] = .ok () := by
  have ordered : covers [⟨⟨"a"⟩, 3, 2⟩, ⟨⟨"b"⟩, 5, 2⟩] [⟨⟨"m"⟩, 3, 4⟩] = .ok () := by decide
  exact ((covers_exact _ _).2.1 _ _ (List.Perm.swap ..) (List.Perm.refl _)).mpr ordered

/-- The last offset there is, on both sides: its end is no offset. -/
theorem covers_last_offset :
    ¬ ∀ retiring installing : List ObjectRef, covers retiring installing = .ok () ↔
      retiring ≠ [] ∧ installing ≠ [] ∧ RefsSeamless retiring ∧ RefsSeamless installing ∧
        ∀ o, 0 < coveredBy retiring o ↔ 0 < coveredBy installing o := by
  intro all
  have one (o : Nat) : coveredBy [⟨⟨"a"⟩, i64Max, 1⟩] o = if o = i64Max then 1 else 0 := by
    unfold coveredBy coverage
    rw [List.countP_singleton]
    refine if_congr ?_ rfl rfl
    rw [decide_eq_true_eq]
    dsimp only [ObjectRef.stop]
    omega
  have seamless : RefsSeamless [⟨⟨"a"⟩, i64Max, 1⟩] := by
    refine ⟨by simp [ObjectRef.stop], fun o => ?_, fun low o high lower upper hlow hhigh => ?_⟩
    · have count := one o
      unfold coveredBy at count
      rw [count]
      split <;> omega
    · have count := one low
      have count' := one high
      have count'' := one o
      unfold coveredBy at count count' count''
      rw [count] at hlow
      rw [count'] at hhigh
      rw [count'']
      split at hlow
      · split at hhigh
        · rw [if_pos (by omega)]
          exact Nat.one_pos
        · omega
      · omega
  have accepted := (all [⟨⟨"a"⟩, i64Max, 1⟩] [⟨⟨"a"⟩, i64Max, 1⟩]).mpr
    ⟨by simp, by simp, seamless, seamless, fun _ => Iff.rfl⟩
  exact absurd accepted (by decide)

end Oqueue
