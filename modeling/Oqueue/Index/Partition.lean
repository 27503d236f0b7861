import Oqueue.Core.Coverage

/-!
# One partition's tiers

The tail is the hot window with byte ranges inline, the history everything
older that no manifest has absorbed. What can happen to a partition is a push
(with the demotion it may cause), a trim, a compaction swap of history, and a
manifest absorbing a prefix of history.
-/

namespace Oqueue

open Checked Tiling

def tailWindowEntries : Nat := 128

structure PartitionIndex where
  endOffset : Nat := 0
  tail : List TailEntry := []
  history : List ObjectRef := []
  manifest : Option (ObjectKey × Nat) := none
  when : Option TimeSpan := none
  logStart : Nat := 0
  deriving DecidableEq, Repr

/-- How many entries each tier of the index holds. -/
@[ext] structure Tiers where
  tail : Nat := 0
  history : Nat := 0
  manifests : Nat := 0
  deriving DecidableEq, Repr

namespace Tiers

def total (self : Tiers) : Nat := self.tail + self.history + self.manifests

def add (self other : Tiers) : Tiers :=
  ⟨self.tail + other.tail, self.history + other.history, self.manifests + other.manifests⟩

def sub (self other : Tiers) : Tiers :=
  ⟨self.tail - other.tail, self.history - other.history, self.manifests - other.manifests⟩

end Tiers

namespace PartitionIndex

/-- Every resident reference, oldest first: history and then the tail. -/
def refs (self : PartitionIndex) : List ObjectRef :=
  self.history ++ self.tail.map TailEntry.reference

/-- The scan of `boundary` spills the bases below the tail window. -/
def boundaryScan (upto limit : Nat) : List Nat → Option Nat → Option Nat
  | [], next => some (next.getD limit)
  | base :: rest, next =>
    if base = upto then none
    else if upto < base then
      boundaryScan upto limit rest (some (next.elim base (fun held => min held base)))
    else boundaryScan upto limit rest next

/-- `none` when `upto` is a boundary a manifest may end at, else the next one above it. -/
def boundary (self : PartitionIndex) (upto : Nat) : Option Nat :=
  let bases := self.refs.map ObjectRef.baseOffset
  let firstTail := bases.length - tailWindowEntries
  let limit := bases[firstTail]?.getD self.endOffset
  if upto = limit then none
  else boundaryScan upto limit (bases.take firstTail) none

/-- Whether an entry's end is representable and past `upto`. -/
def endsAbove (upto : Nat) (entry : ObjectRef) : Bool :=
  match entry.endOffset with
  | .ok stop => decide (upto < stop)
  | .error _ => false

/-- Replaces the history a manifest covers with one reference to it; how many
entries that removed, and whether it superseded an earlier manifest. -/
def absorb (self : PartitionIndex) (manifest : ObjectKey) (upto : Nat) :
    (Nat × Bool) × PartitionIndex :=
  let kept := self.history.filter (endsAbove upto)
  ((self.history.length - kept.length, self.manifest.isSome),
    { self with history := kept, manifest := some (manifest, upto) })

/-- Pushes a committed object onto the tail, demoting what falls out of the window. -/
def push (self : PartitionIndex) (entry : TailEntry) : PartitionIndex :=
  let tail := self.tail ++ [entry]
  if tailWindowEntries < tail.length then
    match tail with
    | [] => { self with tail := tail }
    | evicted :: rest => { self with tail := rest, history := self.history ++ [evicted.demote] }
  else { self with tail := tail }

/-- Whether an entry lies wholly below a trim's start. -/
def dead (start : Nat) (entry : ObjectRef) : Bool :=
  match entry.endOffset with
  | .ok stop => decide (stop ≤ start)
  | .error _ => false

/-- Drops every entry wholly below `start`; answers the objects behind them. -/
def trim (self : PartitionIndex) (start : Nat) : List ObjectKey × PartitionIndex :=
  if start ≤ self.logStart then ([], self)
  else
    let gone := self.history.filter (dead start) ++
      (self.tail.filter (fun entry => dead start entry.reference)).map TailEntry.reference
    (gone.map ObjectRef.object,
      { self with
        history := self.history.filter (fun entry => !dead start entry)
        tail := self.tail.filter (fun entry => !dead start entry.reference)
        manifest := self.manifest.filter (fun held => !decide (held.2 ≤ start))
        logStart := start })

/-- Folds a commit time into this partition's extent. -/
def observe (self : PartitionIndex) (when : TimeSpan) : PartitionIndex :=
  { self with when := some (self.when.elim when (fun held => held.widened when)) }

def holdsInHistory (self : PartitionIndex) (reference : ObjectRef) : Bool :=
  self.history.any (fun held => held == reference)

/-- Swaps a run of history references for another, and restores offset order. -/
def replaceHistory (self : PartitionIndex) (retiring installing : List ObjectRef) :
    PartitionIndex :=
  { self with
    history := sortByBase
      (self.history.filter (fun held => !retiring.any (fun going => going == held)) ++ installing) }

def tiers (self : PartitionIndex) : Tiers :=
  ⟨self.tail.length, self.history.length, self.manifest.elim 0 (fun _ => 1)⟩

/-- What every partition of a folded index satisfies. The resident references
tile `[first, endOffset)`; a manifest, when there is one, ends where they begin,
and when there is none they reach down to the log start; and history is only
ever filled by demotion, so it is empty unless the tail window is full. -/
structure WF (p : PartitionIndex) : Prop where
  tiles : ∃ first, RefTiles p.refs first p.endOffset
  fits : p.endOffset ≤ i64Max
  window : p.tail.length ≤ tailWindowEntries
  full : p.history ≠ [] → p.tail.length = tailWindowEntries
  logStart_le : p.logStart ≤ p.endOffset
  manifest_meets : ∀ held, p.manifest = some held → RefTiles p.refs held.2 p.endOffset
  reaches : p.manifest = none → ∃ first, first ≤ p.logStart ∧ RefTiles p.refs first p.endOffset

theorem WF.default : WF {} where
  tiles := ⟨0, rfl⟩
  fits := Nat.zero_le _
  window := Nat.zero_le _
  full := fun h => absurd rfl h
  logStart_le := Nat.le_refl _
  manifest_meets := by simp
  reaches := fun _ => ⟨0, Nat.le_refl _, rfl⟩

theorem WF.stop_le {p : PartitionIndex} (wf : p.WF) {r : ObjectRef} (hr : r ∈ p.refs) :
    r.stop ≤ i64Max := by
  obtain ⟨first, htiles⟩ := wf.tiles
  exact le_trans (htiles.bounds hr).2.2 wf.fits

theorem WF.endOffset_ok {p : PartitionIndex} (wf : p.WF) {r : ObjectRef} (hr : r ∈ p.refs) :
    r.endOffset = .ok r.stop := ObjectRef.endOffset_of_le (wf.stop_le hr)

theorem mem_refs_of_history {p : PartitionIndex} {r : ObjectRef} (h : r ∈ p.history) :
    r ∈ p.refs := List.mem_append_left _ h

theorem mem_refs_of_tail {p : PartitionIndex} {e : TailEntry} (h : e ∈ p.tail) :
    e.reference ∈ p.refs := List.mem_append_right _ (List.mem_map_of_mem h)

theorem endsAbove_of_le {upto : Nat} {r : ObjectRef} (h : r.stop ≤ i64Max) :
    endsAbove upto r = decide (upto < r.stop) := by
  simp [endsAbove, ObjectRef.endOffset_of_le h]

theorem not_dead_of_le {start : Nat} {r : ObjectRef} (h : r.stop ≤ i64Max) :
    (!dead start r) = decide (start < r.stop) := by
  simp [dead, ObjectRef.endOffset_of_le h, ← decide_not]

theorem push_cases (p : PartitionIndex) (entry : TailEntry) :
    (p.tail.length < tailWindowEntries ∧ p.push entry = { p with tail := p.tail ++ [entry] }) ∨
    ∃ evicted rest, tailWindowEntries ≤ p.tail.length ∧ p.tail ++ [entry] = evicted :: rest ∧
      p.push entry = { p with tail := rest, history := p.history ++ [evicted.demote] } := by
  unfold push
  by_cases spills : tailWindowEntries < (p.tail ++ [entry]).length
  · right
    simp only [spills, if_true]
    rw [List.length_append, List.length_singleton] at spills
    cases h : p.tail ++ [entry] with
    | nil => simp at h
    | cons evicted rest => exact ⟨evicted, rest, by omega, rfl, rfl⟩
  · left
    simp only [spills, if_false, and_true]
    rw [List.length_append, List.length_singleton] at spills
    omega

theorem refs_push (p : PartitionIndex) (entry : TailEntry) :
    (p.push entry).refs = p.refs ++ [entry.reference] := by
  obtain ⟨-, h⟩ | ⟨evicted, rest, -, htail, h⟩ := p.push_cases entry
  · simp [h, refs]
  · have mapped := congrArg (List.map TailEntry.reference) htail
    simp only [List.map_append, List.map_cons, List.map_nil] at mapped
    simp [h, refs, TailEntry.demote, mapped]

theorem push_frame (p : PartitionIndex) (entry : TailEntry) :
    (p.push entry).endOffset = p.endOffset ∧ (p.push entry).manifest = p.manifest ∧
      (p.push entry).when = p.when ∧ (p.push entry).logStart = p.logStart := by
  obtain ⟨-, h⟩ | ⟨evicted, rest, -, -, h⟩ := p.push_cases entry <;> simp [h]

@[simp] theorem push_endOffset (p : PartitionIndex) (entry : TailEntry) :
    (p.push entry).endOffset = p.endOffset := (p.push_frame entry).1

@[simp] theorem push_manifest (p : PartitionIndex) (entry : TailEntry) :
    (p.push entry).manifest = p.manifest := (p.push_frame entry).2.1

@[simp] theorem push_when (p : PartitionIndex) (entry : TailEntry) :
    (p.push entry).when = p.when := (p.push_frame entry).2.2.1

@[simp] theorem push_logStart (p : PartitionIndex) (entry : TailEntry) :
    (p.push entry).logStart = p.logStart := (p.push_frame entry).2.2.2

theorem push_window {p : PartitionIndex} (window : p.tail.length ≤ tailWindowEntries)
    (full : p.history ≠ [] → p.tail.length = tailWindowEntries) (entry : TailEntry) :
    (p.push entry).tail.length ≤ tailWindowEntries ∧
      ((p.push entry).history ≠ [] → (p.push entry).tail.length = tailWindowEntries) := by
  obtain ⟨room, h⟩ | ⟨evicted, rest, spills, htail, h⟩ := p.push_cases entry
  · simp only [h, List.length_append, List.length_singleton]
    refine ⟨by omega, fun demoted => ?_⟩
    have := full demoted
    omega
  · have lengths := congrArg List.length htail
    simp only [List.length_append, List.length_cons, List.length_nil] at lengths
    simp only [h]
    exact ⟨by omega, fun _ => by omega⟩

@[simp] theorem absorb_endOffset (p : PartitionIndex) (manifest : ObjectKey) (upto : Nat) :
    (p.absorb manifest upto).2.endOffset = p.endOffset := rfl

theorem boundaryScan_eq_none {upto limit : Nat} {bases : List Nat} {next : Option Nat} :
    boundaryScan upto limit bases next = none ↔ upto ∈ bases := by
  induction bases generalizing next with
  | nil => simp [boundaryScan]
  | cons base rest ih =>
    unfold boundaryScan
    split
    · simp_all
    · split <;> simp_all [eq_comm]

theorem getElem?_refs_of_history {p : PartitionIndex} (wf : p.WF) (h : p.history ≠ []) :
    p.refs.length - tailWindowEntries = p.history.length := by
  have := wf.full h
  simp only [refs, List.length_append, List.length_map]
  omega

/-- A boundary is where some suffix of the resident references begins, and what
lies below it is all history. -/
theorem WF.split_at_boundary {p : PartitionIndex} (wf : p.WF) {upto : Nat}
    (h : p.boundary upto = none) :
    ∃ below above, p.history = below ++ above ∧
      RefTiles (above ++ p.tail.map TailEntry.reference) upto p.endOffset ∧
      ∀ r ∈ below, r.stop ≤ upto := by
  obtain ⟨first, htiles⟩ := wf.tiles
  by_cases empty : p.history = []
  · -- With no history the window is not full, so the only boundary is the first reference.
    have short : p.refs.length - tailWindowEntries = 0 := by
      have := wf.window
      simp only [refs, empty, List.nil_append, List.length_map]
      omega
    have start : upto = (p.refs.map ObjectRef.baseOffset)[0]?.getD p.endOffset := by
      unfold boundary at h
      simp only [List.length_map, short, List.take_zero] at h
      split at h
      · assumption
      · simp [boundaryScan] at h
    refine ⟨[], [], by simp [empty], ?_, by simp⟩
    have same : p.refs = p.tail.map TailEntry.reference := by simp [refs, empty]
    rw [same] at htiles start
    cases htail : p.tail.map TailEntry.reference with
    | nil =>
      rw [htail] at start
      simp only [List.map_nil, List.getElem?_nil, Option.getD_none] at start
      exact start
    | cons r rest =>
      rw [htail] at start htiles
      simp only [List.map_cons, List.getElem?_cons_zero, Option.getD_some] at start
      rw [start, htiles.1]
      exact htiles
  · have count := getElem?_refs_of_history wf empty
    obtain ⟨middle, hbelow, htail⟩ := Tiles.append_iff.mp htiles
    have tailStart : (p.refs.map ObjectRef.baseOffset)[p.history.length]?.getD p.endOffset
        = middle := by
      have window := wf.full empty
      cases hcons : p.tail with
      | nil =>
        rw [hcons] at window
        simp [tailWindowEntries] at window
      | cons e rest =>
        rw [hcons] at htail
        simp [refs, hcons, htail.1]
    unfold boundary at h
    simp only [List.length_map, count, tailStart] at h
    split at h
    · rename_i atTail
      refine ⟨p.history, [], by simp, ?_, ?_⟩
      · rw [atTail]
        exact htail
      · intro r hr
        rw [atTail]
        exact (hbelow.bounds hr).2.2
    · rw [boundaryScan_eq_none] at h
      simp only [refs, List.map_append, List.take_left', List.length_map] at h
      obtain ⟨r, hr, rfl⟩ := List.mem_map.mp h
      obtain ⟨below, above, hsplit⟩ := List.append_of_mem hr
      rw [hsplit] at hbelow
      obtain ⟨m, hlow, hhigh⟩ := Tiles.append_iff.mp hbelow
      have start : r.baseOffset = m := hhigh.1
      refine ⟨below, r :: above, hsplit, ?_, ?_⟩
      · rw [start]
        exact hhigh.append htail
      · intro x hx
        rw [start]
        exact (hlow.bounds hx).2.2

theorem WF.absorb {p : PartitionIndex} (wf : p.WF) {upto : Nat} (h : p.boundary upto = none)
    (manifest : ObjectKey) : (p.absorb manifest upto).2.WF := by
  obtain ⟨below, above, hhist, habove, hbelow⟩ := wf.split_at_boundary h
  have kept : p.history.filter (endsAbove upto) = above := by
    rw [hhist, List.filter_append]
    have dropAll : below.filter (endsAbove upto) = [] := by
      rw [List.filter_eq_nil_iff]
      intro r hr
      have := hbelow r hr
      rw [endsAbove_of_le (wf.stop_le (mem_refs_of_history (by simp [hhist, hr])))]
      simpa using this
    have keepAll : above.filter (endsAbove upto) = above := by
      rw [List.filter_eq_self]
      intro r hr
      rw [endsAbove_of_le (wf.stop_le (mem_refs_of_history (by simp [hhist, hr])))]
      have := habove.bounds (List.mem_append_left _ hr)
      simp only [decide_eq_true_eq]
      omega
    rw [dropAll, keepAll, List.nil_append]
  have newTiles : RefTiles (p.absorb manifest upto).2.refs upto p.endOffset := by
    simpa [PartitionIndex.absorb, refs, kept] using habove
  exact {
    tiles := ⟨upto, newTiles⟩
    fits := wf.fits
    window := wf.window
    full := by
      intro nonempty
      apply wf.full
      intro empty
      apply nonempty
      simp [PartitionIndex.absorb, empty]
    logStart_le := wf.logStart_le
    manifest_meets := by
      intro held hheld
      simp only [PartitionIndex.absorb, Option.some.injEq] at hheld
      subst hheld
      exact newTiles
    reaches := fun none => by cases none }

@[simp] theorem trim_endOffset (p : PartitionIndex) (start : Nat) :
    (p.trim start).2.endOffset = p.endOffset := by
  unfold trim
  split <;> rfl

theorem WF.refs_trim {p : PartitionIndex} (wf : p.WF) {start : Nat} (moves : p.logStart < start) :
    (p.trim start).2.refs = p.refs.filter (fun r => decide (start < r.stop)) := by
  have keep : ∀ r ∈ p.refs, (!dead start r) = decide (start < r.stop) :=
    fun r hr => not_dead_of_le (wf.stop_le hr)
  simp only [trim, if_neg (Nat.not_le.mpr moves)]
  unfold refs
  rw [List.filter_append, List.filter_map]
  congr 1
  · exact List.filter_congr fun r hr => keep r (mem_refs_of_history hr)
  · congr 1
    exact List.filter_congr fun e he => keep e.reference (mem_refs_of_tail he)

theorem WF.reaches_trim {p : PartitionIndex} (wf : p.WF) {start : Nat} (moves : p.logStart < start)
    (none : (p.trim start).2.manifest = none) :
    ∃ first, first ≤ start ∧ RefTiles p.refs first p.endOffset := by
  cases held : p.manifest with
  | none =>
    obtain ⟨first, inside, htiles⟩ := wf.reaches held
    exact ⟨first, by omega, htiles⟩
  | some manifest =>
    simp only [PartitionIndex.trim, if_neg (Nat.not_le.mpr moves), held] at none
    rw [Option.filter_eq_none_iff] at none
    have covered := none manifest rfl
    simp only [Bool.not_eq_true', decide_eq_false_iff_not, not_not] at covered
    exact ⟨manifest.2, covered, wf.manifest_meets manifest held⟩

theorem WF.trim {p : PartitionIndex} (wf : p.WF) {start : Nat} (h : start ≤ p.endOffset) :
    (p.trim start).2.WF := by
  by_cases moves : p.logStart < start
  · obtain ⟨first, htiles⟩ := wf.tiles
    obtain ⟨dropped, hsplit, hdropped⟩ := htiles.filter_above start
    obtain ⟨middle, hlow, hhigh⟩ := Tiles.append_iff.mp (hsplit ▸ htiles)
    have kept := wf.refs_trim moves
    have stops : ∀ r ∈ p.refs, (!dead start r) = decide (start < r.stop) :=
      fun r hr => not_dead_of_le (wf.stop_le hr)
    have tail_eq : (p.trim start).2.tail = p.tail.filter (fun e => !dead start e.reference) := by
      simp [PartitionIndex.trim, Nat.not_le.mpr moves]
    have history_eq : (p.trim start).2.history = p.history.filter (fun r => !dead start r) := by
      simp [PartitionIndex.trim, Nat.not_le.mpr moves]
    exact {
      tiles := ⟨middle, by rw [kept, trim_endOffset]; exact hhigh⟩
      fits := by rw [trim_endOffset]; exact wf.fits
      window := by
        rw [tail_eq]
        exact le_trans (List.length_filter_le _ _) wf.window
      full := by
        -- A history entry that survives lies below the tail, so the tail survives whole.
        intro nonempty
        rw [history_eq] at nonempty
        obtain ⟨r, hr⟩ := List.exists_mem_of_ne_nil _ nonempty
        obtain ⟨hr, alive⟩ := List.mem_filter.mp hr
        rw [stops r (mem_refs_of_history hr), decide_eq_true_eq] at alive
        have tailAlive : ∀ e ∈ p.tail, (!dead start e.reference) = true := by
          intro e he
          have order := (List.pairwise_append.mp htiles.pairwise).2.2 r hr e.reference
            (List.mem_map_of_mem he)
          have width := (htiles.bounds (mem_refs_of_tail he)).2.1
          rw [stops _ (mem_refs_of_tail he), decide_eq_true_eq]
          omega
        rw [tail_eq, List.filter_eq_self.mpr tailAlive]
        exact wf.full (List.ne_nil_of_mem hr)
      logStart_le := by
        rw [trim_endOffset]
        simpa [PartitionIndex.trim, Nat.not_le.mpr moves] using h
      manifest_meets := by
        intro held hheld
        simp only [PartitionIndex.trim, if_neg (Nat.not_le.mpr moves)] at hheld
        obtain ⟨hheld, above⟩ := Option.filter_eq_some_iff.mp hheld
        simp only [Bool.not_eq_true', decide_eq_false_iff_not, Nat.not_le] at above
        have meets := wf.manifest_meets held hheld
        have keepAll : ∀ r ∈ p.refs, decide (start < r.stop) = true := by
          intro r hr
          have := meets.bounds hr
          simp only [decide_eq_true_eq]
          omega
        rw [kept, trim_endOffset, List.filter_eq_self.mpr keepAll]
        exact meets
      reaches := by
        intro none
        obtain ⟨first, inside, htiles⟩ := wf.reaches_trim moves none
        obtain ⟨dropped, hsplit, hdropped⟩ := htiles.filter_above start
        obtain ⟨middle, hlow, hhigh⟩ := Tiles.append_iff.mp (hsplit ▸ htiles)
        have start_eq : (p.trim start).2.logStart = start := by
          simp [PartitionIndex.trim, Nat.not_le.mpr moves]
        rw [kept, trim_endOffset, start_eq]
        exact ⟨middle, hlow.end_le inside hdropped, hhigh⟩ }
  · have same : (p.trim start).2 = p := by
      simp [PartitionIndex.trim, Nat.le_of_not_lt moves]
    rw [same]
    exact wf

theorem holdsInHistory_iff {p : PartitionIndex} {r : ObjectRef} :
    p.holdsInHistory r = true ↔ r ∈ p.history := by
  simp [holdsInHistory]

/-- A swap the fold accepts replaces one block of history by another of the same extent. -/
theorem WF.swap_block {p : PartitionIndex} (wf : p.WF) {retiring installing : List ObjectRef}
    (hcovers : covers retiring installing = .ok ())
    (held : ∀ r ∈ retiring, p.holdsInHistory r = true) :
    ∃ before after, p.history = before ++ sortByBase retiring ++ after ∧
      (p.replaceHistory retiring installing).history
        = before ++ sortByBase installing ++ after ∧
      sortByBase installing ≠ [] ∧
      ∀ first, RefTiles p.refs first p.endOffset →
        RefTiles (p.replaceHistory retiring installing).refs first p.endOffset := by
  obtain ⟨low, high, ne, hret, hinst⟩ := covers_eq_ok hcovers
  obtain ⟨first, htiles⟩ := wf.tiles
  obtain ⟨middle, hhist, htail⟩ := Tiles.append_iff.mp htiles
  have sub : ∀ r ∈ sortByBase retiring, r ∈ p.history := fun r hr =>
    holdsInHistory_iff.mp (held r ((sortByBase_perm retiring).subset hr))
  obtain ⟨before, after, hsplit⟩ := hhist.block_of_subset hret ne sub
  obtain ⟨m₁, hleft, hafter⟩ := Tiles.append_iff.mp (hsplit ▸ hhist)
  obtain ⟨m₀, hbefore, hblock⟩ := Tiles.append_iff.mp hleft
  obtain rfl : m₀ = low := hblock.start_unique hret ne
  obtain rfl : m₁ = high := hblock.end_unique hret
  have stays : p.history.filter (fun h => !retiring.any (fun going => going == h))
      = before ++ after := by
    have nodup := hhist.nodup
    rw [hsplit] at nodup ⊢
    rw [List.append_assoc] at nodup
    have outside : ∀ r, r ∈ before ∨ r ∈ after → ∀ x ∈ retiring, ¬x = r := by
      rintro r hr _ hmem rfl
      have hsorted := (sortByBase_perm retiring).symm.subset hmem
      rcases hr with hr | hr
      · exact List.disjoint_of_nodup_append nodup hr (List.mem_append_left _ hsorted)
      · exact List.disjoint_of_nodup_append (List.nodup_append.mp nodup).2.1 hsorted hr
    have inside : ∀ r ∈ sortByBase retiring, r ∈ retiring :=
      fun r hr => (sortByBase_perm retiring).subset hr
    have keepBefore : before.filter (fun h => !retiring.any (fun going => going == h)) = before :=
      List.filter_eq_self.mpr fun r hr => by simpa using outside r (.inl hr)
    have keepAfter : after.filter (fun h => !retiring.any (fun going => going == h)) = after :=
      List.filter_eq_self.mpr fun r hr => by simpa using outside r (.inr hr)
    have dropBlock : (sortByBase retiring).filter
        (fun h => !retiring.any (fun going => going == h)) = [] :=
      List.filter_eq_nil_iff.mpr fun r hr => by simpa using inside r hr
    rw [List.filter_append, List.filter_append, keepBefore, keepAfter, dropBlock, List.append_nil]
  have newHistory : RefTiles (before ++ sortByBase installing ++ after) first middle :=
    (hbefore.append hinst).append hafter
  have sorted : (p.replaceHistory retiring installing).history
      = before ++ sortByBase installing ++ after := by
    simp only [replaceHistory, stays]
    apply newHistory.sort_eq
    have swap : (before ++ after ++ installing).Perm (before ++ installing ++ after) := by
      rw [List.append_assoc, List.append_assoc]
      exact List.perm_append_comm.append_left _
    exact swap.trans (((sortByBase_perm installing).symm.append_left _).append_right _)
  refine ⟨before, after, hsplit, sorted, ?_, ?_⟩
  · intro empty
    rw [empty] at hinst
    obtain rfl : m₀ = m₁ := hinst
    exact ne hret.eq_nil
  · intro start hstart
    have newRefs : RefTiles (p.replaceHistory retiring installing).refs first p.endOffset := by
      unfold refs
      rw [sorted]
      exact newHistory.append htail
    have nonempty : p.refs ≠ [] := by
      intro empty
      rw [refs, List.append_eq_nil_iff] at empty
      rw [empty.1] at hsplit
      simp only [List.append_assoc, List.nil_eq, List.append_eq_nil_iff] at hsplit
      exact ne hsplit.2.1
    rwa [hstart.start_unique htiles nonempty]

theorem WF.replaceHistory {p : PartitionIndex} (wf : p.WF) {retiring installing : List ObjectRef}
    (hcovers : covers retiring installing = .ok ())
    (held : ∀ r ∈ retiring, p.holdsInHistory r = true) :
    (p.replaceHistory retiring installing).WF := by
  obtain ⟨before, after, hsplit, -, -, htiles⟩ := wf.swap_block hcovers held
  obtain ⟨low, high, ne, -, -⟩ := covers_eq_ok hcovers
  exact {
    tiles := by
      obtain ⟨first, h⟩ := wf.tiles
      exact ⟨first, htiles first h⟩
    fits := wf.fits
    window := wf.window
    full := by
      intro _
      apply wf.full
      intro empty
      rw [empty] at hsplit
      simp only [List.append_assoc, List.nil_eq, List.append_eq_nil_iff] at hsplit
      exact ne hsplit.2.1
    logStart_le := wf.logStart_le
    manifest_meets := fun h hh => htiles _ (wf.manifest_meets h hh)
    reaches := by
      intro none
      obtain ⟨first, inside, h⟩ := wf.reaches none
      exact ⟨first, inside, htiles first h⟩ }

end PartitionIndex

end Oqueue
