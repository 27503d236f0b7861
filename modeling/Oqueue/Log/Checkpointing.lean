import Oqueue.Log.Open

/-!
# Appending, folding and pruning

Each request of an append or a checkpoint leaves the store holding the line, or
the line with one segment more. A checkpoint's base is a good one for as long as
no other has taken its generation, since its snapshot was written before and
nothing that may be deleted is newer.
-/

namespace Oqueue.Log

variable {Entry : Type} {F : SegmentFormat Entry} {store store' : Store}
  {line line' : List (List Entry)}

namespace Store

theorem Evolves.refl (store : Store) (line : List (List Entry)) : Evolves store line store line :=
  ⟨fun _ _ => id, fun _ _ => .inl, List.prefix_rfl⟩

theorem Evolves.segments (store : Store) (line : List (List Entry)) (segments) :
    Evolves store line { store with segments } line :=
  ⟨fun _ _ => id, fun _ _ => .inl, List.prefix_rfl⟩

namespace Holds

theorem behind (h : store.Holds F line) {segments : Nat → Option (List UInt8)}
    (same : ∀ generation base, store.Names generation base → store.Newest generation →
      ∀ i, base.seq ≤ i → segments i = store.segments i) :
    ({ store with segments } : Store).Holds F line :=
  { h with
    segments := fun generation base names newest i le =>
      (congrArg (Option.map F.decode) (same generation base names newest i le)).trans
        (h.segments generation base names newest i le) }

theorem setSegment_behind (h : store.Holds F line) {g : Nat} {older : Base}
    (present : store.bases g = some older) {seq : Nat} (lt : seq < older.seq)
    (payload : Option (List UInt8)) : (store.setSegment seq payload).Holds F line := by
  refine h.behind fun generation base names newest i le => ?_
  have := h.seq_le_newest names newest present
  exact Function.update_of_ne (by omega) ..

/-- A segment that goes where the line ends takes it one further. -/
theorem land (h : store.Holds F line) {append : Append Entry} (at_end : append.seq = line.length)
    (nonempty : append.entries ≠ []) (decodes : F.decode append.payload = .ok append.entries)
    (rising : Rising F (line.flatten ++ append.entries)) :
    (store.setSegment append.seq (some append.payload)).Holds F (line ++ [append.entries]) where
  rising := by simpa using rising
  nonempty := by
    intro segment mem
    rcases List.mem_append.mp mem with old | new
    · exact h.nonempty segment old
    · rwa [List.mem_singleton.mp new]
  contiguous := h.contiguous
  base := by
    intro g base present
    obtain ⟨le, last, named, at_⟩ := h.base g base present
    rw [List.take_append_of_le_length le]
    exact ⟨le.trans (by simp), last, named, at_⟩
  advancing := h.advancing
  snapshot := by
    intro g base last present newest named
    rw [List.take_append_of_le_length (h.base g base present).1]
    exact h.snapshot g base last present newest named
  segments := by
    intro generation base names newest i le
    have before := h.segments generation base names newest i le
    simp only [setSegment, Function.update_apply]
    split
    · rename_i same
      rw [same, at_end]
      simp [decodes]
    · rename_i other
      rw [before]
      by_cases lt : i < line.length
      · rw [List.getElem?_append_left lt]
      · rw [List.getElem?_eq_none (by omega), List.getElem?_eq_none (by simp; omega)]
  ahead := by
    intro version bytes present newer
    have newer' : ∀ generation base last, store.Names generation base → store.Newest generation →
        lastVersion F (line.take base.seq).flatten = some last → last < version := by
      intro generation base last names newest at_
      refine newer generation base last names newest ?_
      rwa [List.take_append_of_le_length]
      cases generation with
      | none =>
        cases names
        exact Nat.zero_le _
      | some g => exact (h.base g base names).1
    obtain ⟨k, le, decoded, at_⟩ := h.ahead version bytes present newer'
    refine ⟨k, le.trans (by simp), ?_⟩
    rw [List.take_append_of_le_length le]
    exact ⟨decoded, at_⟩

theorem deleteSnap (h : store.Holds F line) {version : Nat} (old : store.Superseded version) :
    (store.setSnap version none).Holds F line :=
  { h with
    snapshot := fun g base last present newest named => by
      obtain ⟨bytes, at_, decoded⟩ := h.snapshot g base last present newest named
      obtain ⟨le, last', named', at_'⟩ := h.base g base present
      rw [named, Option.some_inj] at named'
      subst named'
      have names : store.Names (some g) base := present
      have lt := h.superseded_lt old names newest (le_refl _) le at_'
      exact ⟨bytes, by simp [setSnap, lt.ne', at_], decoded⟩
    ahead := fun v bytes present newer => by
      simp only [setSnap, Function.update_apply] at present
      split at present
      · cases present
      · exact h.ahead v bytes present newer }

/-- A snapshot may be written where none is, provided a newer one is right. -/
theorem putSnap (h : store.Holds F line) {version : Nat} {payload : List UInt8}
    (free : store.snaps version = none)
    (right : (∀ generation base last, store.Names generation base → store.Newest generation →
        lastVersion F (line.take base.seq).flatten = some last → last < version) →
      ∃ k ≤ line.length, F.decode payload = .ok (line.take k).flatten ∧
        lastVersion F (line.take k).flatten = some version) :
    (store.setSnap version (some payload)).Holds F line :=
  { h with
    snapshot := fun g base last present newest named => by
      obtain ⟨bytes, at_, decoded⟩ := h.snapshot g base last present newest named
      have other : last ≠ version := by
        rintro rfl
        simp [free] at at_
      exact ⟨bytes, by simp [setSnap, other, at_], decoded⟩
    ahead := fun v bytes present newer => by
      simp only [setSnap, Function.update_apply] at present
      split at present
      · rename_i same
        cases present
        subst same
        exact right newer
      · exact h.ahead v bytes present newer }

end Holds

theorem Evolves.deleteSnap {version : Nat} (old : store.Superseded version) :
    Evolves store line (store.setSnap version none) line :=
  ⟨fun _ _ => id, fun v bytes present => by
    by_cases same : v = version
    · exact .inr (same ▸ old)
    · exact .inl (by simp [setSnap, same, present]), List.prefix_rfl⟩

theorem Evolves.putSnap {version : Nat} {payload : List UInt8} (free : store.snaps version = none) :
    Evolves store line (store.setSnap version (some payload)) line :=
  ⟨fun _ _ => id, fun v bytes present => by
    have other : v ≠ version := by
      rintro rfl
      simp [free] at present
    exact .inl (by simp [setSnap, other, present]), List.prefix_rfl⟩

theorem Evolves.setBase {generation : Nat} {base : Base}
    (free : store.bases generation = none) :
    Evolves store line (store.setBase generation base) line :=
  ⟨fun g base' present => by
    have other : g ≠ generation := by
      rintro rfl
      simp [free] at present
    simp [Store.setBase, other, present], fun _ _ => .inl, List.prefix_rfl⟩

end Store

open Store

/-- What a checkpoint captured: the line up to a segment, past the base it names. -/
structure Capture.Fits (F : SegmentFormat Entry) (store : Store) (line : List (List Entry))
    (capture : Capture) : Prop where
  le_length : capture.seq ≤ line.length
  decodes : F.decode capture.payload = .ok (line.take capture.seq).flatten
  last : lastVersion F (line.take capture.seq).flatten = some capture.last
  names : ∃ generation, capture.generation = following generation ∧
    store.Names generation ⟨capture.oldBase, capture.oldSnapshot⟩
  base_lt : capture.oldBase < capture.seq

/-- As long as its generation is free, a checkpoint's snapshot is there. -/
def Capture.Snapped (F : SegmentFormat Entry) (store : Store) (line : List (List Entry))
    (capture : Capture) : Prop :=
  store.bases capture.generation = none → ∃ bytes, store.snaps capture.last = some bytes ∧
    F.decode bytes = .ok (line.take capture.seq).flatten

theorem Capture.Fits.evolve (h : store.Evolves line store' line') {capture : Capture}
    (fits : capture.Fits F store line) : capture.Fits F store' line' where
  le_length := fits.le_length.trans h.length_le
  decodes := by rw [h.take fits.le_length, fits.decodes]
  last := by rw [h.take fits.le_length, fits.last]
  names := by
    obtain ⟨generation, eq, names⟩ := fits.names
    exact ⟨generation, eq, h.names names⟩
  base_lt := fits.base_lt

theorem Capture.Fits.newest {capture : Capture} (fits : capture.Fits F store line)
    (free : store.bases capture.generation = none) : ∃ generation,
      capture.generation = following generation ∧
      store.Names generation ⟨capture.oldBase, capture.oldSnapshot⟩ ∧ store.Newest generation := by
  obtain ⟨generation, eq, names⟩ := fits.names
  exact ⟨generation, eq, names, by rw [Newest, ← eq, free]⟩

theorem Capture.Snapped.evolve (holds : store.Holds F line) (h : store.Evolves line store' line')
    {capture : Capture} (fits : capture.Fits F store line) (snapped : capture.Snapped F store line) :
    capture.Snapped F store' line' := by
  intro free'
  have free : store.bases capture.generation = none := by
    cases present : store.bases capture.generation with
    | none => rfl
    | some base => simp [h.bases _ _ present] at free'
  obtain ⟨bytes, present, decoded⟩ := snapped free
  rw [h.take fits.le_length]
  refine ⟨bytes, (h.snaps _ _ present).resolve_right fun old => ?_, decoded⟩
  obtain ⟨generation, -, names, newest⟩ := fits.newest free
  exact lt_irrefl _
    (holds.superseded_lt old names newest fits.base_lt.le fits.le_length fits.last)

theorem Capture.Fits.last_lt (holds : store.Holds F line) {capture : Capture}
    (fits : capture.Fits F store line) (free : store.bases capture.generation = none)
    {generation : Option Nat} {base : Base} {last : Nat} (names : store.Names generation base)
    (newest : store.Newest generation)
    (at_ : lastVersion F (line.take base.seq).flatten = some last) : last < capture.last := by
  obtain ⟨generation', -, names', newest'⟩ := fits.newest free
  obtain ⟨-, rfl⟩ := holds.newest_unique names newest names' newest'
  exact holds.lastVersion_lt fits.base_lt fits.le_length at_ fits.last

namespace Store.Holds

theorem snapped (h : store.Holds F line) {capture : Capture} (fits : capture.Fits F store line)
    {bytes : List UInt8} (present : store.snaps capture.last = some bytes) :
    capture.Snapped F store line := by
  intro free
  obtain ⟨k, le, decoded, at_⟩ := h.ahead _ _ present fun generation base last names newest at_ =>
    fits.last_lt h free names newest at_
  obtain rfl := h.eq_of_lastVersion le fits.le_length at_ fits.last
  exact ⟨bytes, present, decoded⟩

/-- A base that is written next to the newest, with its snapshot there, is the newest. -/
theorem putBase (h : store.Holds F line) {capture : Capture} (fits : capture.Fits F store line)
    (snapped : capture.Snapped F store line) (free : store.bases capture.generation = none) :
    (store.setBase capture.generation ⟨capture.seq, some capture.last⟩).Holds F line := by
  obtain ⟨generation, follows, names, newest⟩ := fits.newest free
  have at_ : ∀ g, (store.setBase capture.generation ⟨capture.seq, some capture.last⟩).bases g =
      if g = capture.generation then some ⟨capture.seq, some capture.last⟩ else store.bases g := by
    intro g
    simp [Store.setBase, Function.update_apply]
  -- the new base is the only one nothing follows
  have only : ∀ generation' base', (store.setBase capture.generation
      ⟨capture.seq, some capture.last⟩).Names generation' base' → (store.setBase capture.generation
      ⟨capture.seq, some capture.last⟩).Newest generation' →
      generation' = some capture.generation ∧ base' = ⟨capture.seq, some capture.last⟩ := by
    intro generation' base' names' newest'
    have other : following generation' ≠ capture.generation := by
      intro same
      simp [Newest, at_, same] at newest'
    have newest_old : store.Newest generation' := by simpa [Newest, at_, other] using newest'
    by_cases same : generation' = some capture.generation
    · subst same
      simp only [Store.Names, at_, if_pos, Option.some_inj] at names'
      exact ⟨rfl, names'.symm⟩
    · have names_old : store.Names generation' base' := by
        cases generation' with
        | none => exact names'
        | some g =>
          have : g ≠ capture.generation := fun eq => same (by rw [eq])
          simpa [Store.Names, at_, this] using names'
      obtain ⟨rfl, -⟩ := h.newest_unique names_old newest_old names newest
      exact absurd follows.symm other
  refine ⟨h.rising, h.nonempty, ?_, ?_, ?_, ?_, ?_, ?_⟩
  · intro g present
    rw [at_] at present ⊢
    split
    · rfl
    · split at present
      · rename_i last
        cases generation with
        | none => simp [following] at follows; omega
        | some g' =>
          obtain rfl : g = g' := by simp only [following] at follows; omega
          exact Option.isSome_iff_exists.mpr ⟨_, names⟩
      · exact h.contiguous g present
  · intro g base present
    rw [at_] at present
    split at present
    · cases present
      exact ⟨fits.le_length, capture.last, rfl, fits.last⟩
    · exact h.base g base present
  · intro g base base' present present'
    rw [at_] at present present'
    split at present
    · rename_i same
      rw [if_neg (by omega)] at present'
      have := h.contiguous g (Option.isSome_iff_exists.mpr ⟨_, present'⟩)
      simp [same, free] at this
    · split at present'
      · rename_i last
        cases present'
        cases generation with
        | none => simp [following] at follows; omega
        | some g' =>
          obtain rfl : g = g' := by simp only [following] at follows; omega
          rw [Store.Names, present, Option.some_inj] at names
          subst names
          exact fits.base_lt
      · exact h.advancing g base base' present present'
  · intro g base last present newest' named
    obtain ⟨same, rfl⟩ := only (some g) base present newest'
    cases named
    exact snapped free
  · intro generation' base' names' newest' i le
    obtain ⟨-, rfl⟩ := only generation' base' names' newest'
    exact h.segments generation _ names newest i (fits.base_lt.le.trans le)
  · intro version bytes present newer
    refine h.ahead version bytes present fun generation' base' last names' newest' at_last => ?_
    have newer_than : capture.last < version := by
      refine newer (some capture.generation) ⟨capture.seq, some capture.last⟩ capture.last
        (by simp [Store.Names, at_]) ?_ fits.last
      have beyond : store.bases (capture.generation + 1) = none := by
        cases past : store.bases (capture.generation + 1) with
        | none => rfl
        | some base =>
          have := h.contiguous _ (Option.isSome_iff_exists.mpr ⟨_, past⟩)
          simp [free] at this
      simp [Newest, following, at_, beyond]
    exact (fits.last_lt h free names' newest' at_last).trans newer_than

end Store.Holds

/-- Nothing an `open` of the newest base reads. -/
def Key.Retired (store : Store) : Key → Prop
  | .segment seq => ∃ g base, store.bases g = some base ∧ seq < base.seq
  | .snap version => store.Superseded version
  | .base _ => False

/-- What holds of the store at each place a checkpoint waits. -/
def Checkpoint.Fits (F : SegmentFormat Entry) (store : Store) (line : List (List Entry)) :
    Checkpoint → Prop
  | snapping capture => capture.Fits F store line
  | snapped capture => capture.Fits F store line ∧ capture.Snapped F store line
  | tailing capture _ => capture.Fits F store line ∧ capture.Snapped F store line
  | basing capture => capture.Fits F store line ∧ capture.Snapped F store line
  | based capture => capture.Fits F store line ∧
    store.bases capture.generation = some ⟨capture.seq, some capture.last⟩
  | retiring retired => ∀ key ∈ retired, key.Retired store

theorem Key.Retired.evolve (h : store.Evolves line store' line') {key : Key}
    (retired : key.Retired store) : key.Retired store' := by
  cases key with
  | segment seq =>
    obtain ⟨g, base, present, lt⟩ := retired
    exact ⟨g, base, h.bases g base present, lt⟩
  | snap version =>
    obtain ⟨g, base, present, later, named⟩ := retired
    exact ⟨g, base, h.bases g base present, h.isSome later, named⟩
  | base generation => exact retired

theorem Checkpoint.Fits.evolve (holds : store.Holds F line) (h : store.Evolves line store' line')
    {checkpoint : Checkpoint} (fits : checkpoint.Fits F store line) :
    checkpoint.Fits F store' line' := by
  cases checkpoint with
  | snapping capture => exact Capture.Fits.evolve h fits
  | snapped capture => exact ⟨fits.1.evolve h, fits.2.evolve holds h fits.1⟩
  | tailing capture tail => exact ⟨fits.1.evolve h, fits.2.evolve holds h fits.1⟩
  | basing capture => exact ⟨fits.1.evolve h, fits.2.evolve holds h fits.1⟩
  | based capture => exact ⟨fits.1.evolve h, h.bases _ _ fits.2⟩
  | retiring retired => exact fun key mem => (fits key mem).evolve h

/-- Whatever a checkpoint asks of the store, the store goes on holding the line. -/
theorem Checkpoint.Fits.serve (holds : store.Holds F line) {checkpoint : Checkpoint}
    (fits : checkpoint.Fits F store line) {out : Checkpoint ⊕ Error}
    (served : store.serveCheckpoint checkpoint = some (store', out)) :
    store'.Holds F line ∧ store.Evolves line store' line ∧
      ∀ checkpoint', out = .inl checkpoint' → checkpoint'.Fits F store' line := by
  cases checkpoint with
  | snapping capture =>
    cases served
    split
    · rename_i absent
      have free := Option.isNone_iff_eq_none.mp absent
      have evolves : store.Evolves line (store.setSnap capture.last (some capture.payload)) line :=
        .putSnap free
      refine ⟨holds.putSnap free fun _ => ⟨capture.seq, fits.le_length, fits.decodes, fits.last⟩,
        evolves, ?_⟩
      rintro _ ⟨⟩
      exact ⟨Capture.Fits.evolve evolves fits, fun _ => ⟨capture.payload, by simp [setSnap], fits.decodes⟩⟩
    · rename_i taken
      obtain ⟨bytes, present⟩ := Option.ne_none_iff_exists'.mp (by simpa using taken)
      refine ⟨holds, .refl store line, ?_⟩
      rintro _ ⟨⟩
      exact ⟨fits, holds.snapped fits present⟩
  | tailing capture tail =>
    cases served
    refine ⟨holds, .refl store line, ?_⟩
    intro checkpoint' same
    split at same
    · cases same
      exact fits
    · cases same
  | basing capture =>
    simp only [serveCheckpoint] at served
    split at served
    · rename_i absent
      cases served
      have free := Option.isNone_iff_eq_none.mp absent
      refine ⟨holds.putBase fits.1 fits.2 free, .setBase free, ?_⟩
      rintro _ ⟨⟩
      exact ⟨fits.1.evolve (.setBase free), by simp [setBase]⟩
    · cases served
      exact ⟨holds, .refl store line, nofun⟩
  | snapped capture => cases served
  | based capture => cases served
  | retiring retired => cases served

theorem Key.Retired.delete (holds : store.Holds F line) {key : Key} (retired : key.Retired store) :
    (store.delete key).Holds F line ∧ store.Evolves line (store.delete key) line := by
  cases key with
  | segment seq =>
    obtain ⟨g, base, present, lt⟩ := retired
    exact ⟨holds.setSegment_behind present lt none, .segments store line _⟩
  | snap version => exact ⟨holds.deleteSnap retired, .deleteSnap retired⟩
  | base generation => exact retired.elim

/-- What a capture that became the base may delete. -/
theorem Capture.Fits.retired {capture : Capture} (fits : capture.Fits F store line)
    (present : store.bases capture.generation = some ⟨capture.seq, some capture.last⟩) :
    ∀ key ∈ capture.retired, key.Retired store := by
  intro key mem
  rcases List.mem_append.mp mem with segment | snap
  · obtain ⟨seq, range, rfl⟩ := List.mem_map.mp segment
    refine ⟨_, _, present, ?_⟩
    have := fits.base_lt
    simp only [List.mem_range'_1] at range
    dsimp only
    omega
  · simp only [Option.mem_toList, Option.map_eq_some_iff, Option.filter_eq_some_iff] at snap
    obtain ⟨old, ⟨named, -⟩, rfl⟩ := snap
    obtain ⟨generation, follows, names⟩ := fits.names
    cases generation with
    | none =>
      have none_named := congrArg Base.snapshot names
      simp [named] at none_named
    | some g =>
      refine ⟨g, _, names, ?_, named⟩
      rw [show g + 1 = capture.generation from follows.symm, present]
      rfl

namespace State

theorem Fits.capture {state : State Entry} (fits : state.Fits store line) {capture : Capture}
    (captured : state.capture F = .ok (some capture)) :
    capture.Fits F store line ∧ capture.seq = state.nextSeq := by
  unfold State.capture at captured
  split at captured
  · cases captured
  · rename_i last at_
    split at captured
    · cases captured
    · rename_i behind
      obtain ⟨generation, advanced, captured⟩ := Checked.bind_eq_ok.mp captured
      obtain ⟨payload, encoded, captured⟩ := Checked.bind_eq_ok.mp captured
      cases captured
      refine ⟨⟨fits.le_length, ?_, ?_, ⟨state.generation, ?_, fits.names⟩, ?_⟩, rfl⟩
      · rw [← fits.entries]
        exact F.decode_encode encoded
      · rw [← fits.entries]
        exact at_
      · cases named : state.generation with
        | none =>
          rw [named] at advanced
          cases advanced
          rfl
        | some g =>
          rw [named] at advanced
          exact (CommitVersion.advance_eq_ok.mp advanced).1
      · exact lt_of_le_of_ne fits.base_le (Ne.symm behind)

theorem Fits.resume {state state' : State Entry} (fits : state.Fits store line)
    {checkpoint checkpoint' : Checkpoint} (waits : checkpoint.Fits F store line)
    (within : ∀ capture, checkpoint = .based capture → capture.seq ≤ state.nextSeq)
    (resumed : state.resume checkpoint = some (state', checkpoint')) :
    state'.Fits store line ∧ checkpoint'.Fits F store line ∧ state'.nextSeq = state.nextSeq := by
  cases checkpoint with
  | snapped capture =>
    cases resumed
    exact ⟨fits, waits, rfl⟩
  | based capture =>
    cases resumed
    exact ⟨⟨waits.2, within capture rfl, fits.le_length, fits.entries⟩,
      waits.1.retired waits.2, rfl⟩
  | snapping capture => cases resumed
  | tailing capture tail => cases resumed
  | basing capture => cases resumed
  | retiring retired => cases resumed

end State

end Oqueue.Log
