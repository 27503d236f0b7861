import Oqueue.Log.Segments

/-!
# What a store holds of a line of segments

The line is every segment that was ever taken for the log, in order. A store
holds it when its newest base names a snapshot of the segments before it and the
rest are there: what lies behind the newest base does not matter. Reading only
what the newest base leads to, an `open` therefore ends with a prefix of the line
that was the whole of it when the walk ended.
-/

namespace Oqueue.Log

variable {Entry : Type} {F : SegmentFormat Entry}

/-- Versions strictly increase. -/
def Rising (F : SegmentFormat Entry) (entries : List Entry) : Prop :=
  entries.Pairwise fun a b => F.version a < F.version b

theorem validate_eq_ok {entries : List Entry} {last : Option Nat} :
    validate F entries last = .ok () ↔
      Rising F entries ∧ ∀ previous, last = some previous → ∀ e ∈ entries, previous < F.version e := by
  induction entries generalizing last with
  | nil => simp [validate, Rising]
  | cons entry rest ih =>
    have tail : (Rising F rest ∧ ∀ previous, some (F.version entry) = some previous →
        ∀ e ∈ rest, previous < F.version e) ↔ Rising F (entry :: rest) := by
      simp only [Rising, List.pairwise_cons, Option.some_inj, forall_eq']
      exact and_comm
    cases last with
    | none => simp only [validate, ih, tail, reduceCtorEq, false_implies, implies_true, and_true]
    | some previous =>
      simp only [validate]
      split
      · rename_i low
        simp only [reduceCtorEq, Option.some_inj, forall_eq', List.mem_cons, forall_eq_or_imp,
          false_iff, not_and]
        intro _ above
        omega
      · rename_i high
        rw [ih, tail]
        simp only [Option.some_inj, forall_eq', List.mem_cons, forall_eq_or_imp]
        refine ⟨fun rising => ⟨rising, by omega, ?_⟩, And.left⟩
        intro e mem
        have := List.rel_of_pairwise_cons rising mem
        omega

theorem lastVersion_append {front back : List Entry} (nonempty : back ≠ []) :
    lastVersion F (front ++ back) = lastVersion F back := by
  simp [lastVersion, List.getLast?_append_of_ne_nil _ nonempty]

theorem Rising.le_last {entries : List Entry} (rising : Rising F entries) {last : Nat}
    (at_ : lastVersion F entries = some last) : ∀ e ∈ entries, F.version e ≤ last := by
  unfold lastVersion at at_
  obtain ⟨final, final_eq, rfl⟩ := Option.map_eq_some_iff.mp at_
  obtain ⟨front, rfl⟩ := List.getLast?_eq_some_iff.mp final_eq
  intro e mem
  rcases List.mem_append.mp mem with early | final_mem
  · exact (List.pairwise_append.mp rising).2.2 e early final (List.mem_singleton_self _) |>.le
  · rw [List.mem_singleton.mp final_mem]

theorem Rising.append {front back : List Entry} (rising : Rising F front)
    (valid : validate F back (lastVersion F front) = .ok ()) : Rising F (front ++ back) := by
  obtain ⟨rising', above⟩ := validate_eq_ok.mp valid
  refine List.pairwise_append.mpr ⟨rising, rising', ?_⟩
  intro a ha b hb
  cases last_eq : lastVersion F front with
  | none =>
    simp only [lastVersion, Option.map_eq_none_iff, List.getLast?_eq_none_iff] at last_eq
    simp [last_eq] at ha
  | some last => exact (rising.le_last last_eq a ha).trans_lt (above last last_eq b hb)

theorem Rising.valid {front back : List Entry} (rising : Rising F (front ++ back)) :
    validate F back (lastVersion F front) = .ok () := by
  obtain ⟨-, rising', across⟩ := List.pairwise_append.mp rising
  refine validate_eq_ok.mpr ⟨rising', ?_⟩
  intro previous at_ e mem
  obtain ⟨final, final_eq, rfl⟩ := Option.map_eq_some_iff.mp at_
  exact across final (List.mem_of_getLast? final_eq) e mem

/-- The generation a checkpoint of `generation` would write. -/
def following : Option Nat → Nat
  | none => 0
  | some generation => generation + 1

namespace Store

/-- What a generation says; before the first, that the log begins at segment zero. -/
def Names (store : Store) : Option Nat → Base → Prop
  | none, base => base = ⟨0, none⟩
  | some generation, base => store.bases generation = some base

def Newest (store : Store) (generation : Option Nat) : Prop :=
  store.bases (following generation) = none

structure Holds (F : SegmentFormat Entry) (store : Store) (line : List (List Entry)) : Prop where
  rising : Rising F line.flatten
  nonempty : ∀ segment ∈ line, segment ≠ []
  contiguous : ∀ g, (store.bases (g + 1)).isSome → (store.bases g).isSome
  base : ∀ g base, store.bases g = some base → base.seq ≤ line.length ∧
    ∃ last, base.snapshot = some last ∧ lastVersion F (line.take base.seq).flatten = some last
  advancing : ∀ g base base', store.bases g = some base → store.bases (g + 1) = some base' →
    base.seq < base'.seq
  snapshot : ∀ g base last, store.bases g = some base → store.Newest (some g) →
    base.snapshot = some last →
    ∃ bytes, store.snaps last = some bytes ∧ F.decode bytes = .ok (line.take base.seq).flatten
  segments : ∀ generation base, store.Names generation base → store.Newest generation →
    ∀ i, base.seq ≤ i → (store.segments i).map F.decode = (line)[i]?.map .ok
  -- a snapshot past the newest base's is one a checkpoint is about to name
  ahead : ∀ version bytes, store.snaps version = some bytes →
    (∀ generation base last, store.Names generation base → store.Newest generation →
      lastVersion F (line.take base.seq).flatten = some last → last < version) →
    ∃ k ≤ line.length, F.decode bytes = .ok (line.take k).flatten ∧
      lastVersion F (line.take k).flatten = some version

def Superseded (store : Store) (version : Nat) : Prop :=
  ∃ g base, store.bases g = some base ∧ (store.bases (g + 1)).isSome ∧
    base.snapshot = some version

/-- How a store and its line may move under a waiting call. -/
structure Evolves (store : Store) (line : List (List Entry)) (store' : Store)
    (line' : List (List Entry)) : Prop where
  bases : ∀ g base, store.bases g = some base → store'.bases g = some base
  snaps : ∀ version bytes, store.snaps version = some bytes →
    store'.snaps version = some bytes ∨ store.Superseded version
  line : line <+: line'

theorem Evolves.names {store store' : Store} {line line' : List (List Entry)}
    (h : Evolves store line store' line') {generation : Option Nat} {base : Base}
    (names : store.Names generation base) : store'.Names generation base := by
  cases generation with
  | none => exact names
  | some g => exact h.bases g base names

theorem Evolves.newest {store store' : Store} {line line' : List (List Entry)}
    (h : Evolves store line store' line') {generation : Option Nat}
    (newest : store'.Newest generation) : store.Newest generation := by
  unfold Newest at *
  cases present : store.bases (following generation) with
  | none => rfl
  | some base => simp [h.bases _ _ present] at newest

theorem Evolves.isSome {store store' : Store} {line line' : List (List Entry)}
    (h : Evolves store line store' line') {g : Nat} (present : (store.bases g).isSome) :
    (store'.bases g).isSome := by
  obtain ⟨base, same⟩ := Option.isSome_iff_exists.mp present
  simp [h.bases g base same]

theorem Evolves.take {store store' : Store} {line line' : List (List Entry)}
    (h : Evolves store line store' line') {k : Nat} (le : k ≤ line.length) :
    line'.take k = line.take k := by
  obtain ⟨more, rfl⟩ := h.line
  exact List.take_append_of_le_length le

theorem Evolves.length_le {store store' : Store} {line line' : List (List Entry)}
    (h : Evolves store line store' line') : line.length ≤ line'.length := h.line.length_le

namespace Holds

variable {store : Store} {line : List (List Entry)}

theorem isSome_of_le (h : store.Holds F line) {g g' : Nat} (le : g ≤ g')
    (present : (store.bases g').isSome) : (store.bases g).isSome := by
  induction le with
  | refl => exact present
  | step _ ih => exact ih (h.contiguous _ present)

theorem lt_of_absent (h : store.Holds F line) {g g' : Nat} (present : (store.bases g).isSome)
    (absent : store.bases g' = none) : g < g' := by
  by_contra le
  have := h.isSome_of_le (Nat.le_of_not_lt le) present
  simp [absent] at this

theorem seq_lt (h : store.Holds F line) {g g' : Nat} {base base' : Base} (lt : g < g')
    (at_ : store.bases g = some base) (at_' : store.bases g' = some base') :
    base.seq < base'.seq := by
  induction lt generalizing base' with
  | refl => exact h.advancing _ _ _ at_ at_'
  | step _ ih =>
    obtain ⟨mid, at_mid⟩ := Option.isSome_iff_exists.mp
      (h.contiguous _ (Option.isSome_iff_exists.mpr ⟨_, at_'⟩))
    exact (ih at_mid).trans (h.advancing _ _ _ at_mid at_')

theorem seq_le_newest (h : store.Holds F line) {generation : Option Nat} {base : Base}
    (names : store.Names generation base) (newest : store.Newest generation) {g : Nat}
    {other : Base} (at_ : store.bases g = some other) : other.seq ≤ base.seq := by
  have lt := h.lt_of_absent (Option.isSome_iff_exists.mpr ⟨_, at_⟩) newest
  cases generation with
  | none => simp [following] at lt
  | some g' =>
    obtain rfl | less := Nat.lt_succ_iff_lt_or_eq.mp lt |>.symm
    · rw [Store.Names, at_, Option.some_inj] at names
      exact names ▸ le_refl _
    · exact (h.seq_lt less at_ names).le

theorem generation_le_seq (h : store.Holds F line) {g : Nat} {base : Base}
    (at_ : store.bases g = some base) : g ≤ base.seq := by
  induction g generalizing base with
  | zero => exact Nat.zero_le _
  | succ g ih =>
    obtain ⟨before, at_before⟩ := Option.isSome_iff_exists.mp
      (h.contiguous g (Option.isSome_iff_exists.mpr ⟨_, at_⟩))
    exact (ih at_before).trans_lt (h.advancing g before base at_before at_)

theorem exists_newest (h : store.Holds F line) :
    ∃ generation base, store.Names generation base ∧ store.Newest generation := by
  by_contra none_newest
  have every : ∀ g, (store.bases g).isSome := by
    intro g
    induction g with
    | zero =>
      rw [Option.isSome_iff_ne_none]
      exact fun absent => none_newest ⟨none, ⟨0, none⟩, rfl, absent⟩
    | succ g ih =>
      obtain ⟨base, at_⟩ := Option.isSome_iff_exists.mp ih
      rw [Option.isSome_iff_ne_none]
      exact fun absent => none_newest ⟨some g, base, at_, absent⟩
  obtain ⟨base, at_⟩ := Option.isSome_iff_exists.mp (every (line.length + 1))
  have low := h.generation_le_seq at_
  have high := (h.base _ _ at_).1
  omega

theorem newest_unique (h : store.Holds F line) {generation generation' : Option Nat}
    {base base' : Base} (names : store.Names generation base) (newest : store.Newest generation)
    (names' : store.Names generation' base') (newest' : store.Newest generation') :
    generation = generation' ∧ base = base' := by
  have below : ∀ {g : Nat} {b : Base}, store.bases g = some b →
      g < following generation ∧ g < following generation' := fun present =>
    ⟨h.lt_of_absent (Option.isSome_iff_exists.mpr ⟨_, present⟩) newest,
      h.lt_of_absent (Option.isSome_iff_exists.mpr ⟨_, present⟩) newest'⟩
  have same : generation = generation' := by
    cases generation with
    | none =>
      cases generation' with
      | none => rfl
      | some g' => simpa [following] using below names'
    | some g =>
      have ltg := below names
      cases generation' with
      | none => simp [following] at ltg
      | some g' =>
        have ltg' := below names'
        simp only [following] at ltg ltg'
        rw [show g = g' by omega]
  subst same
  cases generation with
  | none => exact ⟨rfl, names.trans names'.symm⟩
  | some g =>
    simp only [Store.Names] at names names'
    rw [names, Option.some_inj] at names'
    exact ⟨rfl, names'⟩

/-- A longer prefix of the line ends in a later version. -/
theorem lastVersion_lt (h : store.Holds F line) {i j : Nat} (lt : i < j) (le : j ≤ line.length)
    {last last' : Nat} (at_ : lastVersion F (line.take i).flatten = some last)
    (at_' : lastVersion F (line.take j).flatten = some last') : last < last' := by
  have split : (line.take j).flatten = (line.take i).flatten ++ ((line.take j).drop i).flatten := by
    rw [← List.flatten_append]
    conv_lhs => rw [← List.take_append_drop i (line.take j), List.take_take, min_eq_left lt.le]
  have rising : Rising F (line.take j).flatten := by
    refine List.Pairwise.sublist ?_ h.rising
    exact (List.take_sublist j line).flatten
  obtain ⟨segment, segment_mem⟩ : ∃ segment, segment ∈ (line.take j).drop i :=
    List.exists_mem_of_length_pos (by simp; omega)
  have nonempty : ((line.take j).drop i).flatten ≠ [] := by
    have := h.nonempty segment (List.mem_of_mem_take (List.mem_of_mem_drop segment_mem))
    simp only [ne_eq, List.flatten_eq_nil_iff, not_forall]
    exact ⟨segment, segment_mem, this⟩
  rw [split] at rising at_'
  rw [lastVersion_append nonempty] at at_'
  obtain ⟨a, a_eq, rfl⟩ := Option.map_eq_some_iff.mp at_
  obtain ⟨b, b_eq, rfl⟩ := Option.map_eq_some_iff.mp at_'
  exact (List.pairwise_append.mp rising).2.2 a (List.mem_of_getLast? a_eq) b
    (List.mem_of_getLast? b_eq)

theorem eq_of_lastVersion (h : store.Holds F line) {i j last : Nat} (hi : i ≤ line.length)
    (hj : j ≤ line.length) (at_ : lastVersion F (line.take i).flatten = some last)
    (at_' : lastVersion F (line.take j).flatten = some last) : i = j := by
  obtain lt | eq | gt := lt_trichotomy i j
  · exact absurd (h.lastVersion_lt lt hj at_ at_') (lt_irrefl _)
  · exact eq
  · exact absurd (h.lastVersion_lt gt hi at_' at_) (lt_irrefl _)

theorem superseded_lt (h : store.Holds F line) {version : Nat} (old : store.Superseded version)
    {generation : Option Nat} {base : Base} (names : store.Names generation base)
    (newest : store.Newest generation) {i last : Nat} (le : base.seq ≤ i) (hi : i ≤ line.length)
    (at_ : lastVersion F (line.take i).flatten = some last) : version < last := by
  obtain ⟨g, older, present, later, named⟩ := old
  obtain ⟨base', present'⟩ := Option.isSome_iff_exists.mp later
  obtain ⟨-, last', named', at_'⟩ := h.base g older present
  rw [named, Option.some_inj] at named'
  subst named'
  have lt : older.seq < i := (h.advancing g older base' present present').trans_le
    ((h.seq_le_newest names newest present').trans le)
  exact h.lastVersion_lt lt hi at_' at_

end Holds

end Store

end Oqueue.Log
