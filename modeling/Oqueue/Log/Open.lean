import Oqueue.Log.Line

/-!
# Opening a log that moves

What an `open` has read is the line as far as it goes, as long as the base it
began from is still the newest. The second look at the bases therefore decides:
either nothing moved while the walk ran, and its end was the line's end, or a
later base is there to be found.
-/

namespace Oqueue.Log

variable {Entry : Type} {F : SegmentFormat Entry} {store store' : Store}
  {line line' : List (List Entry)}

/-- A walk that ended at the line's end, no earlier than the line then was. -/
structure Reads (line : List (List Entry)) (since : Nat) (base : Base) (entries : List Entry)
    (seq : Nat) : Prop where
  since_le : since ≤ seq
  base_le : base.seq ≤ seq
  le_length : seq ≤ line.length
  entries : entries = (line.take seq).flatten

theorem Reads.evolve (h : store.Evolves line store' line') {since seq : Nat} {base : Base}
    {entries : List Entry} (reads : Reads line since base entries seq) :
    Reads line' since base entries seq :=
  ⟨reads.since_le, reads.base_le, reads.le_length.trans h.length_le,
    by rw [reads.entries, h.take reads.le_length]⟩

/-- What holds of the store at each place an `open` waits. -/
def Opening.Fits (store : Store) (line : List (List Entry)) (since : Nat) : Opening Entry → Prop
  | basing search => ∀ g base, search.observed = some (g, base) → store.bases g = some base
  | snapshotting generation base snapshot =>
    store.Names generation base ∧ base.snapshot = some snapshot
  | walking generation base entries seq => store.Names generation base ∧
    (store.Newest generation → Reads line 0 base entries seq)
  | confirming generation base entries seq search => store.Names generation base ∧
    (Reads line since base entries seq ∨
      (store.bases (following generation)).isSome ∧ search.Above (following generation))

theorem Opening.Fits.evolve (h : store.Evolves line store' line') {since : Nat}
    {opening : Opening Entry} (fits : opening.Fits store line since) :
    opening.Fits store' line' since := by
  cases opening with
  | basing search => exact fun g base seen => h.bases g base (fits g base seen)
  | snapshotting generation base snapshot => exact ⟨h.names fits.1, fits.2⟩
  | walking generation base entries seq =>
    exact ⟨h.names fits.1, fun newest => (fits.2 (h.newest newest)).evolve h⟩
  | confirming generation base entries seq search =>
    exact ⟨h.names fits.1, fits.2.imp (.evolve h) fun found => ⟨h.isSome found.1, found.2⟩⟩

/-- What a handle on the log relies on: a base, and the line up to its next segment. -/
structure State.Fits (store : Store) (line : List (List Entry)) (state : State Entry) : Prop where
  names : store.Names state.generation ⟨state.baseSeq, state.snapshot⟩
  base_le : state.baseSeq ≤ state.nextSeq
  le_length : state.nextSeq ≤ line.length
  entries : state.entries = (line.take state.nextSeq).flatten

theorem State.Fits.evolve (h : store.Evolves line store' line') {state : State Entry}
    (fits : state.Fits store line) : state.Fits store' line' :=
  ⟨h.names fits.names, fits.base_le, fits.le_length.trans h.length_le,
    by rw [fits.entries, h.take fits.le_length]⟩

theorem extended_eq_ok {entries out : List Entry} {bytes : List UInt8}
    (h : Opening.extended F entries bytes = .ok out) :
    ∃ segment, F.decode bytes = .ok segment ∧ out = entries ++ segment := by
  simp only [Opening.extended, Checked.bind_eq_ok] at h
  obtain ⟨segment, decoded, _, -, done⟩ := h
  cases done
  exact ⟨segment, decoded, rfl⟩

theorem Store.bases_seen {search : Search Base}
    (fits : ∀ g base, search.observed = some (g, base) → store.bases g = some base) {g : Nat}
    {base : Base} (seen : search.seen (store.bases search.probe) = some (g, base)) :
    store.bases g = some base := by
  cases answer : store.bases search.probe with
  | none =>
    rw [answer] at seen
    exact fits g base seen
  | some read =>
    rw [answer] at seen
    cases seen
    exact answer

namespace Store.Holds

theorem take_succ (h : store.Holds F line) {generation : Option Nat} {base : Base}
    (names : store.Names generation base) (newest : store.Newest generation) {seq : Nat}
    (le : base.seq ≤ seq) {bytes : List UInt8} (present : store.segments seq = some bytes)
    {segment : List Entry} (decoded : F.decode bytes = .ok segment) :
    seq < line.length ∧ (line.take (seq + 1)).flatten = (line.take seq).flatten ++ segment := by
  have same := h.segments generation base names newest seq le
  rw [present, Option.map_some, decoded] at same
  obtain ⟨segment', at_, eq⟩ := Option.map_eq_some_iff.mp same.symm
  cases eq
  obtain ⟨lt, rfl⟩ := List.getElem?_eq_some_iff.mp at_
  exact ⟨lt, by rw [List.take_add_one, at_, List.flatten_append]; simp⟩

theorem length_le (h : store.Holds F line) {generation : Option Nat} {base : Base}
    (names : store.Names generation base) (newest : store.Newest generation) {seq : Nat}
    (le : base.seq ≤ seq) (absent : store.segments seq = none) : line.length ≤ seq := by
  have same := h.segments generation base names newest seq le
  rw [absent, Option.map_none, eq_comm, Option.map_eq_none_iff] at same
  exact List.getElem?_eq_none_iff.mp same

theorem behind_base (h : store.Holds F line) {seq : Nat} (lt : seq < line.length)
    (absent : store.segments seq = none) :
    ∃ g base, store.bases g = some base ∧ seq < base.seq := by
  obtain ⟨generation, base, names, newest⟩ := h.exists_newest
  have behind : seq < base.seq := by
    by_contra le
    have := h.length_le names newest (Nat.le_of_not_lt le) absent
    omega
  cases generation with
  | none =>
    cases names
    simp at behind
  | some g => exact ⟨g, base, names, behind⟩

theorem walk_fits (h : store.Holds F line) {since : Nat} {generation : Option Nat} {base : Base}
    (names : store.Names generation base) :
    (Opening.walk generation base : Opening Entry).Fits store line since := by
  cases generation with
  | none =>
    cases names
    exact ⟨rfl, fun _ => ⟨le_refl _, le_refl _, Nat.zero_le _, rfl⟩⟩
  | some g =>
    obtain ⟨-, last, named, -⟩ := h.base g base names
    simp only [Opening.walk, named]
    exact ⟨names, named⟩

theorem reads_snapshot (h : store.Holds F line) {generation : Option Nat} {base : Base}
    (names : store.Names generation base) (newest : store.Newest generation) {snapshot : Nat}
    (named : base.snapshot = some snapshot) {bytes : List UInt8}
    (present : store.snaps snapshot = some bytes) {entries : List Entry}
    (read : Opening.extended F [] bytes = .ok entries) : Reads line 0 base entries base.seq := by
  obtain ⟨segment, decoded, rfl⟩ := extended_eq_ok read
  cases generation with
  | none =>
    cases names
    cases named
  | some g =>
    obtain ⟨bytes', present', decoded'⟩ := h.snapshot g base snapshot names newest named
    rw [present, Option.some_inj] at present'
    subst present'
    rw [decoded, Except.ok.injEq] at decoded'
    exact ⟨Nat.zero_le _, le_refl _, (h.base g base names).1, decoded'⟩

theorem reads_segment (h : store.Holds F line) {generation : Option Nat} {base : Base}
    (names : store.Names generation base) (newest : store.Newest generation) {seq : Nat}
    {entries more : List Entry} (reads : Reads line 0 base entries seq) {bytes : List UInt8}
    (present : store.segments seq = some bytes)
    (read : Opening.extended F entries bytes = .ok more) : Reads line 0 base more (seq + 1) := by
  obtain ⟨segment, decoded, rfl⟩ := extended_eq_ok read
  obtain ⟨lt, longer⟩ := h.take_succ names newest reads.base_le present decoded
  exact ⟨Nat.zero_le _, reads.base_le.trans (Nat.le_succ _), lt, by rw [longer, reads.entries]⟩

theorem reads_all (h : store.Holds F line) {generation : Option Nat} {base : Base}
    (names : store.Names generation base) (newest : store.Newest generation) {seq : Nat}
    {entries : List Entry} (reads : Reads line 0 base entries seq)
    (absent : store.segments seq = none) {since : Nat} (le : since ≤ line.length) :
    Reads line since base entries seq :=
  ⟨le.trans (h.length_le names newest reads.base_le absent), reads.base_le, reads.le_length,
    reads.entries⟩

theorem above_later (h : store.Holds F line) {generation : Option Nat} {search : Search Base}
    (later : (store.bases (following generation)).isSome)
    (above : search.Above (following generation)) :
    (search.resume (2 ^ 64) searchProbes (store.bases search.probe)).Above
      (following generation) :=
  above.resume fun absent => h.lt_of_absent later absent

/-- A later base is found in place of the walk's own. -/
theorem reads_confirmed (h : store.Holds F line) {generation : Option Nat} {base : Base}
    {since seq : Nat} {entries : List Entry} {search : Search Base}
    (reading : Reads line since base entries seq ∨
      (store.bases (following generation)).isSome ∧ search.Above (following generation))
    {newest : Option (Nat × Base)}
    (found : search.resume (2 ^ 64) searchProbes (store.bases search.probe) = .found newest)
    (same : newest.map Prod.fst = generation) : Reads line since base entries seq := by
  refine reading.resolve_right fun ⟨later, above⟩ => ?_
  have outcome := h.above_later later above
  rw [found] at outcome
  obtain ⟨number, value, rfl, le⟩ := outcome
  subst same
  simp only [Option.map_some, following] at le
  omega

end Store.Holds

/-- One request of an `open`: it still fits, or what it returns is the line as far as
the line had gone at some moment of the walk. -/
theorem Opening.Fits.serve (holds : store.Holds F line) {since : Nat} (le : since ≤ line.length)
    {opening : Opening Entry} (fits : opening.Fits store line since) :
    (∀ opening', opening.serve F store = .inl opening' → opening'.Fits store line since) ∧
    (∀ state, opening.serve F store = .inr (.ok state) →
      state.Fits store line ∧ since ≤ state.nextSeq) := by
  cases opening with
  | basing search =>
    simp only [Opening.serve]
    cases resumed : search.resume (2 ^ 64) searchProbes (store.bases search.probe) with
    | ask search' =>
      refine ⟨?_, by rintro _ ⟨⟩⟩
      rintro _ ⟨⟩
      intro g base seen
      exact Store.bases_seen fits (Search.observed_of_ask resumed ▸ seen)
    | found newest =>
      have same := Search.newest_of_found resumed
      cases newest with
      | none =>
        refine ⟨?_, by rintro _ ⟨⟩⟩
        rintro _ ⟨⟩
        exact holds.walk_fits (by rfl)
      | some newest =>
        refine ⟨?_, by rintro _ ⟨⟩⟩
        rintro _ ⟨⟩
        exact holds.walk_fits (Store.bases_seen fits same.symm)
    | overflow absent => exact ⟨by rintro _ ⟨⟩, by rintro _ ⟨⟩⟩
    | spun => exact ⟨by rintro _ ⟨⟩, by rintro _ ⟨⟩⟩
  | snapshotting generation base snapshot =>
    simp only [Opening.serve]
    split
    · exact ⟨by rintro _ ⟨⟩, by rintro _ ⟨⟩⟩
    · rename_i bytes present
      split
      · exact ⟨by rintro _ ⟨⟩, by rintro _ ⟨⟩⟩
      · rename_i entries read
        refine ⟨?_, by rintro _ ⟨⟩⟩
        rintro _ ⟨⟩
        exact ⟨fits.1, fun newest => holds.reads_snapshot fits.1 newest fits.2 present read⟩
  | walking generation base entries seq =>
    obtain ⟨names, reading⟩ := fits
    simp only [Opening.serve]
    split
    · rename_i absent
      refine ⟨?_, by rintro _ ⟨⟩⟩
      rintro _ ⟨⟩
      refine ⟨names, ?_⟩
      by_cases newest : store.Newest generation
      · exact .inl (holds.reads_all names newest (reading newest) absent le)
      · exact .inr ⟨Option.ne_none_iff_isSome.mp newest, trivial⟩
    · rename_i bytes present
      split
      · exact ⟨by rintro _ ⟨⟩, by rintro _ ⟨⟩⟩
      · exact ⟨by rintro _ ⟨⟩, by rintro _ ⟨⟩⟩
      · rename_i entries' seq' read advanced
        obtain ⟨rfl, -⟩ := CommitVersion.advance_eq_ok.mp advanced
        refine ⟨?_, by rintro _ ⟨⟩⟩
        rintro _ ⟨⟩
        exact ⟨names, fun newest => holds.reads_segment names newest (reading newest) present read⟩
  | confirming generation base entries seq search =>
    obtain ⟨names, reading⟩ := fits
    simp only [Opening.serve]
    cases resumed : search.resume (2 ^ 64) searchProbes (store.bases search.probe) with
    | ask search' =>
      refine ⟨?_, by rintro _ ⟨⟩⟩
      rintro _ ⟨⟩
      refine ⟨names, reading.imp_right fun found => ⟨found.1, ?_⟩⟩
      have outcome := holds.above_later found.1 found.2
      rwa [resumed] at outcome
    | found newest =>
      dsimp only
      split
      · refine ⟨?_, by rintro _ ⟨⟩⟩
        rintro _ ⟨⟩
        exact fun g base seen => nomatch seen
      · rename_i same
        refine ⟨by rintro _ ⟨⟩, ?_⟩
        rintro _ ⟨⟩
        have reads := holds.reads_confirmed reading resumed (not_not.mp same)
        exact ⟨⟨names, reads.base_le, reads.le_length, reads.entries⟩, reads.since_le⟩
    | overflow absent => exact ⟨by rintro _ ⟨⟩, by rintro _ ⟨⟩⟩
    | spun => exact ⟨by rintro _ ⟨⟩, by rintro _ ⟨⟩⟩

end Oqueue.Log
