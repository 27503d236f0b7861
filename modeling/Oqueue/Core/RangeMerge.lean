import Oqueue.Core.Types

/-!
# One batch of ranged reads in fewer requests

`planMerge` sorts the bounded ranges of a batch and coalesces those whose gap is within
a threshold; `getMany` reads each group once and slices the members back out of it.
-/

namespace Oqueue

open Checked

abbrev Payload := List UInt8

/-- A sort by a key as it is documented: the order of equal keys is left open. -/
structure UnstableSort {α : Type} (key : α → Nat) where
  sort : List α → List α
  perm : ∀ items, (sort items).Perm items
  sorted : ∀ items, (sort items).Pairwise fun a b => key a ≤ key b

/-- A bounded range of a batch, or its slice local to the group that reads it. -/
structure Span where
  index : Nat
  start : Nat
  stop : Nat
  deriving DecidableEq, Repr

/-- One merged fetch, and which of the batch's ranges it answers. -/
structure MergedGroup where
  start : Nat
  stop : Nat
  members : List Span
  deriving DecidableEq, Repr

namespace MergedGroup

def open_ (span : Span) : MergedGroup := ⟨span.start, span.stop, [span]⟩

def join (self : MergedGroup) (span : Span) : MergedGroup :=
  { self with stop := max self.stop span.stop, members := self.members ++ [span] }

/-- The members rewritten to slices of what the group will fetch. -/
def localized (self : MergedGroup) : MergedGroup :=
  { self with
    members := self.members.map fun m => ⟨m.index, m.start - self.start, m.stop - self.start⟩ }

end MergedGroup

/-- The groups of spans in ascending order of start, from the group they may still join. -/
def coalesce (sparsityThreshold : Nat) : MergedGroup → List Span → List MergedGroup
  | last, [] => [last]
  | last, span :: rest =>
    if span.start ≤ saturatingAdd last.stop sparsityThreshold then
      coalesce sparsityThreshold (last.join span) rest
    else last :: coalesce sparsityThreshold (.open_ span) rest

def planMerge (order : UnstableSort Span.start) (spans : List Span) (sparsityThreshold : Nat) :
    List MergedGroup :=
  match order.sort spans with
  | [] => []
  | span :: rest => (coalesce sparsityThreshold (.open_ span) rest).map MergedGroup.localized

abbrev Inner := Nat → ObjectKey → ByteRange → Except Error Payload

/-- A batch under way: the slots answered so far, the spans still to plan, and how many
requests it has made. -/
structure Gathering where
  results : List (Option (Except Error Payload)) := []
  spans : List Span := []
  calls : Nat := 0

namespace Gathering

/-- The next range of the batch: read whole, or left to the plan, or past any address. -/
def admitRange (inner : Inner) (key : ObjectKey) (self : Gathering) : ByteRange → Gathering
  | .full =>
    { self with
      results := self.results ++ [some (inner self.calls key .full)]
      calls := self.calls + 1 }
  | .bounded offset length =>
    if offset + length ≤ u64Max then
      { self with
        results := self.results ++ [none]
        spans := self.spans ++ [⟨self.results.length, offset, offset + length⟩] }
    else
      { self with
        results := self.results ++ [some (.error (.byteRangeOutOfBounds key offset length u64Max))] }

/-- Bytes `start..stop` of a fetch; there is no such slice when it is too short. -/
def slice (bytes : Payload) (start stop : Nat) : Option Payload :=
  if start ≤ stop ∧ stop ≤ bytes.length then some ((bytes.drop start).take (stop - start)) else none

/-- One member's slot, from its group's fetch. -/
def place (fetch : Except Error Payload) (results : List (Option (Except Error Payload)))
    (member : Span) : Option (List (Option (Except Error Payload))) :=
  match fetch with
  | .ok bytes => do
    let part ← slice bytes member.start member.stop
    return results.set member.index (some (.ok part))
  | .error error => some (results.set member.index (some (.error error)))

/-- One group's fetch, into the slots of its members. -/
def fetch (inner : Inner) (key : ObjectKey) (self : Gathering) (group : MergedGroup) :
    Option Gathering :=
  match ByteRange.new group.start (group.stop - group.start) with
  | .error _ => none
  | .ok range => do
    let results ← group.members.foldlM (place (inner self.calls key range)) self.results
    return { self with results := results, calls := self.calls + 1 }

end Gathering

/-- Every range of a batch, in order; `none` where the source would panic. -/
def getMany (order : UnstableSort Span.start) (inner : Inner) (sparsityThreshold : Nat)
    (key : ObjectKey) (ranges : List ByteRange) : Option (List (Except Error Payload)) := do
  let admitted := ranges.foldl (Gathering.admitRange inner key) {}
  let gathered ← (planMerge order admitted.spans sparsityThreshold).foldlM
    (Gathering.fetch inner key) admitted
  return gathered.results.map fun slot => slot.getD (.error .permanent)

namespace MergedGroup

/-- A group reaches exactly as far as its members do. -/
structure Hull (group : MergedGroup) : Prop where
  within : ∀ m ∈ group.members, group.start ≤ m.start ∧ m.stop ≤ group.stop
  reached : ∃ m ∈ group.members, m.stop = group.stop

theorem Hull.open_ (span : Span) : Hull (.open_ span) where
  within := by
    intro m hm
    rcases List.mem_singleton.mp hm with rfl
    exact ⟨Nat.le_refl _, Nat.le_refl _⟩
  reached := ⟨span, List.mem_singleton.mpr rfl, rfl⟩

theorem Hull.join {group : MergedGroup} (hull : group.Hull) {span : Span}
    (after : group.start ≤ span.start) : (group.join span).Hull where
  within := by
    intro m hm
    rcases List.mem_append.mp hm with old | new
    · have := hull.within m old
      exact ⟨this.1, this.2.trans (Nat.le_max_left ..)⟩
    · rcases List.mem_singleton.mp new with rfl
      exact ⟨after, Nat.le_max_right ..⟩
  reached := by
    obtain ⟨m, hm, reaches⟩ := hull.reached
    unfold MergedGroup.join
    rcases Nat.le_total group.stop span.stop with further | nearer
    · exact ⟨span, List.mem_append_right _ (List.mem_singleton.mpr rfl),
        (Nat.max_eq_right further).symm⟩
    · exact ⟨m, List.mem_append_left _ hm, reaches.trans (Nat.max_eq_left nearer).symm⟩

end MergedGroup

theorem coalesce_members (threshold : Nat) (last : MergedGroup) (rest : List Span) :
    (coalesce threshold last rest).flatMap MergedGroup.members = last.members ++ rest := by
  induction rest generalizing last with
  | nil => simp [coalesce]
  | cons span rest ih =>
    unfold coalesce
    split
    · rw [ih]
      simp [MergedGroup.join]
    · rw [List.flatMap_cons, ih]
      rfl

theorem coalesce_start_le {threshold : Nat} {last : MergedGroup} {rest : List Span}
    (ascending : rest.Pairwise fun a b => a.start ≤ b.start)
    (after : ∀ span ∈ rest, last.start ≤ span.start) :
    ∀ group ∈ coalesce threshold last rest, last.start ≤ group.start := by
  induction rest generalizing last with
  | nil =>
    intro group among
    rcases List.mem_singleton.mp among with rfl
    exact Nat.le_refl _
  | cons span rest ih =>
    obtain ⟨first, later⟩ := List.pairwise_cons.mp ascending
    intro group among
    unfold coalesce at among
    split at among
    · exact @ih (last.join span) later (fun s hs => after s (List.mem_cons_of_mem _ hs)) group among
    · rcases List.mem_cons.mp among with rfl | among
      · exact Nat.le_refl _
      · have begins : last.start ≤ span.start := after span (List.mem_cons_self ..)
        exact begins.trans (@ih (.open_ span) later first group among)

theorem coalesce_hull {threshold : Nat} {last : MergedGroup} {rest : List Span} (hull : last.Hull)
    (ascending : rest.Pairwise fun a b => a.start ≤ b.start)
    (after : ∀ span ∈ rest, last.start ≤ span.start) :
    ∀ group ∈ coalesce threshold last rest, group.Hull := by
  induction rest generalizing last with
  | nil =>
    intro group among
    rcases List.mem_singleton.mp among with rfl
    exact hull
  | cons span rest ih =>
    obtain ⟨first, later⟩ := List.pairwise_cons.mp ascending
    intro group among
    unfold coalesce at among
    split at among
    · refine @ih (last.join span) (hull.join (after span (List.mem_cons_self ..))) later ?_ group among
      exact fun s hs => after s (List.mem_cons_of_mem _ hs)
    · rcases List.mem_cons.mp among with rfl | among
      · exact hull
      · exact @ih (.open_ span) (.open_ span) later first group among

/-- Spans of one object are in two groups only across more than the threshold. -/
theorem coalesce_apart {threshold : Nat} {last : MergedGroup} {rest : List Span}
    (ascending : rest.Pairwise fun a b => a.start ≤ b.start)
    (addressed : ∀ span ∈ rest, span.start ≤ u64Max) :
    (coalesce threshold last rest).Pairwise fun g h => g.stop + threshold < h.start := by
  induction rest generalizing last with
  | nil => exact List.pairwise_singleton ..
  | cons span rest ih =>
    obtain ⟨first, later⟩ := List.pairwise_cons.mp ascending
    have others : ∀ s ∈ rest, s.start ≤ u64Max := fun s hs => addressed s (List.mem_cons_of_mem _ hs)
    unfold coalesce
    split
    case isTrue => exact ih later others
    case isFalse apart =>
      refine List.pairwise_cons.mpr ⟨?_, ih later others⟩
      intro group among
      have begins : span.start ≤ group.start := @coalesce_start_le threshold (.open_ span) rest later
        first group among
      have bounded := addressed span (List.mem_cons_self ..)
      unfold saturatingAdd at apart
      omega

section
variable (order : UnstableSort Span.start) (spans : List Span) (threshold : Nat)

/-- The groups before their members are made local. -/
def groups : List MergedGroup :=
  match order.sort spans with
  | [] => []
  | span :: rest => coalesce threshold (.open_ span) rest

theorem planMerge_eq : planMerge order spans threshold =
    (groups order spans threshold).map MergedGroup.localized := by
  unfold planMerge groups
  split <;> rfl

theorem groups_members :
    (groups order spans threshold).flatMap MergedGroup.members = order.sort spans := by
  unfold groups
  split
  case h_1 none => rw [none]; rfl
  case h_2 span rest some =>
    rw [coalesce_members, some]
    rfl

theorem groups_hull : ∀ group ∈ groups order spans threshold, group.Hull := by
  have ascending := order.sorted spans
  unfold groups
  split
  case h_1 => exact fun group among => absurd among List.not_mem_nil
  case h_2 span rest some =>
    rw [some] at ascending
    obtain ⟨first, later⟩ := List.pairwise_cons.mp ascending
    exact coalesce_hull (.open_ span) later first

theorem planMerge_indices :
    ((planMerge order spans threshold).flatMap fun g => g.members.map Span.index).Perm
      (spans.map Span.index) := by
  have localIndices : ∀ group : MergedGroup,
      group.localized.members.map Span.index = group.members.map Span.index := by
    intro group
    simp [MergedGroup.localized, Function.comp_def]
  have indices : ((planMerge order spans threshold).flatMap fun g => g.members.map Span.index) =
      (order.sort spans).map Span.index := by
    rw [← groups_members order spans threshold, planMerge_eq, List.flatMap_map, List.map_flatMap]
    exact List.flatMap_congr fun group _ => localIndices group
  rw [indices]
  exact (order.perm spans).map _

theorem planMerge_apart (addressed : ∀ span ∈ spans, span.start ≤ u64Max) :
    (planMerge order spans threshold).Pairwise fun g h => g.stop + threshold < h.start := by
  have ascending := order.sorted spans
  have among := order.perm spans
  rw [planMerge_eq, List.pairwise_map]
  unfold groups
  split
  case h_1 => exact List.Pairwise.nil
  case h_2 span rest some =>
    rw [some] at ascending among
    refine coalesce_apart (List.pairwise_cons.mp ascending).2 ?_
    exact fun s hs => addressed s (among.mem_iff.mp (List.mem_cons_of_mem _ hs))

end

/-- A range of an object's bytes, by the contract every store keeps. -/
def sliceRange (key : ObjectKey) (payload : Payload) : ByteRange → Except Error Payload
  | .full => .ok payload
  | .bounded offset length =>
    if offset + length ≤ u64Max ∧ offset + length ≤ payload.length then
      .ok ((payload.drop offset).take length)
    else .error (.byteRangeOutOfBounds key offset length payload.length)

/-- A bounded range is never empty: its constructor refuses one. -/
def ByteRange.Nonempty : ByteRange → Prop
  | .full => True
  | .bounded _ length => length ≠ 0

/-- The spans a batch leaves to the plan. -/
def spansOfRanges (ranges : List ByteRange) : List Span :=
  ranges.zipIdx.filterMap fun item =>
    match item.1 with
    | .full => none
    | .bounded offset length =>
      if offset + length ≤ u64Max then some ⟨item.2, offset, offset + length⟩ else none

theorem mem_spansOfRanges {ranges : List ByteRange} {span : Span} :
    span ∈ spansOfRanges ranges ↔ ∃ length, ranges[span.index]? = some (.bounded span.start length) ∧
      span.stop = span.start + length ∧ span.stop ≤ u64Max := by
  unfold spansOfRanges
  rw [List.mem_filterMap]
  constructor
  · rintro ⟨⟨range, index⟩, among, made⟩
    have held := List.mem_zipIdx_iff_getElem?.mp among
    cases range with
    | full => cases made
    | bounded offset length =>
      dsimp only at made held
      split at made
      case isFalse => cases made
      case isTrue addressed =>
        cases made
        exact ⟨length, held, rfl, addressed⟩
  · rintro ⟨length, held, stops, addressed⟩
    refine ⟨(.bounded span.start length, span.index), List.mem_zipIdx_iff_getElem?.mpr held, ?_⟩
    rw [stops] at addressed
    dsimp only
    rw [if_pos addressed, ← stops]

theorem spansOfRanges_snoc (ranges : List ByteRange) (range : ByteRange) :
    spansOfRanges (ranges ++ [range]) = spansOfRanges ranges ++
      match range with
      | .full => []
      | .bounded offset length =>
        if offset + length ≤ u64Max then [⟨ranges.length, offset, offset + length⟩] else [] := by
  unfold spansOfRanges
  rw [List.zipIdx_append, List.filterMap_append]
  congr 1
  cases range with
  | full => rfl
  | bounded offset length =>
    by_cases addressed : offset + length ≤ u64Max
    · simp [addressed]
    · simp [addressed]

theorem lt_of_mem_spansOfRanges {ranges : List ByteRange} {span : Span}
    (among : span ∈ spansOfRanges ranges) : span.index < ranges.length := by
  obtain ⟨length, held, -⟩ := mem_spansOfRanges.mp among
  exact (List.getElem?_eq_some_iff.mp held).1

/-- No range has two spans. -/
theorem spansOfRanges_indices (ranges : List ByteRange) :
    ((spansOfRanges ranges).map Span.index).Nodup := by
  induction ranges using List.reverseRecOn with
  | nil => exact List.nodup_nil
  | append_singleton ranges range ih =>
    rw [spansOfRanges_snoc, List.map_append]
    have fresh : ∀ offset stop, ((spansOfRanges ranges).map Span.index ++
        [(⟨ranges.length, offset, stop⟩ : Span)].map Span.index).Nodup := by
      intro offset stop
      refine List.Nodup.append ih (List.nodup_singleton _) ?_
      intro index old new
      obtain ⟨span, among, rfl⟩ := List.mem_map.mp old
      have before := lt_of_mem_spansOfRanges among
      have here : span.index = ranges.length := List.mem_singleton.mp new
      omega
    cases range with
    | full => simpa using ih
    | bounded offset length =>
      dsimp only
      split
      · exact fresh _ _
      · simpa using ih

def slotOf (inner : Inner) (key : ObjectKey) (calls : Nat) :
    ByteRange → Option (Except Error Payload)
  | .full => some (inner calls key .full)
  | .bounded offset length =>
    if offset + length ≤ u64Max then none
    else some (.error (.byteRangeOutOfBounds key offset length u64Max))

def fulls (ranges : List ByteRange) : Nat := ranges.count .full

/-- A batch with every range admitted and no group read yet. -/
structure Gathering.Admitted (inner : Inner) (key : ObjectKey) (ranges : List ByteRange)
    (gathering : Gathering) : Prop where
  length : gathering.results.length = ranges.length
  calls : gathering.calls = fulls ranges
  spans : gathering.spans = spansOfRanges ranges
  slots : ∀ i range, ranges[i]? = some range →
    gathering.results[i]? = some (slotOf inner key (fulls (ranges.take i)) range)

theorem Gathering.Admitted.admitRange {inner : Inner} {key : ObjectKey} {ranges : List ByteRange}
    {self : Gathering} (admitted : self.Admitted inner key ranges) (range : ByteRange) :
    (self.admitRange inner key range).Admitted inner key (ranges ++ [range]) := by
  have results : (self.admitRange inner key range).results =
      self.results ++ [slotOf inner key (fulls ranges) range] := by
    rw [← admitted.calls]
    cases range with
    | full => rfl
    | bounded offset length =>
      unfold Gathering.admitRange slotOf
      dsimp only
      split <;> rfl
  have slots : ∀ i r, (ranges ++ [range])[i]? = some r →
      (self.results ++ [slotOf inner key (fulls ranges) range])[i]? =
        some (slotOf inner key (fulls ((ranges ++ [range]).take i)) r) := by
    intro i r held
    rcases Nat.lt_trichotomy i ranges.length with before | rfl | after
    · rw [List.getElem?_append_left before] at held
      rw [List.getElem?_append_left (admitted.length ▸ before),
        List.take_append_of_le_length before.le]
      exact admitted.slots i r held
    · rw [List.getElem?_concat_length] at held
      obtain rfl := Option.some.inj held
      rw [← admitted.length, List.getElem?_concat_length, admitted.length, List.take_left']
      rfl
    · rw [List.getElem?_eq_none (by simpa using after)] at held
      cases held
  cases range with
  | full =>
    refine ⟨?_, ?_, ?_, ?_⟩
    · rw [results, List.length_append, List.length_append, admitted.length]
      rfl
    · change self.calls + 1 = _
      rw [admitted.calls]
      simp [fulls]
    · rw [spansOfRanges_snoc, List.append_nil]
      exact admitted.spans
    · rw [results]
      exact slots
  | bounded offset length =>
    refine ⟨?_, ?_, ?_, ?_⟩
    · rw [results, List.length_append, List.length_append, admitted.length]
      rfl
    · have kept : (self.admitRange inner key (.bounded offset length)).calls = self.calls := by
        unfold Gathering.admitRange
        dsimp only
        split <;> rfl
      rw [kept, admitted.calls]
      simp [fulls]
    · rw [spansOfRanges_snoc]
      unfold Gathering.admitRange
      dsimp only
      rw [← admitted.spans, admitted.length]
      split
      · rfl
      · exact (List.append_nil _).symm
    · rw [results]
      exact slots

theorem admitted (inner : Inner) (key : ObjectKey) (ranges : List ByteRange) :
    (ranges.foldl (Gathering.admitRange inner key) {}).Admitted inner key ranges := by
  induction ranges using List.reverseRecOn with
  | nil => exact ⟨rfl, rfl, rfl, fun i range held => by simp at held⟩
  | append_singleton ranges range ih =>
    rw [List.foldl_append]
    exact ih.admitRange range

def written {β : Type} (slots : List β) (writes : List (Nat × β)) : List β :=
  writes.foldl (fun slots write => slots.set write.1 write.2) slots

section
variable {β : Type}

theorem written_append (slots : List β) (first second : List (Nat × β)) :
    written slots (first ++ second) = written (written slots first) second :=
  List.foldl_append

theorem written_length (slots : List β) (writes : List (Nat × β)) :
    (written slots writes).length = slots.length := by
  induction writes generalizing slots with
  | nil => rfl
  | cons write writes ih => exact (ih _).trans List.length_set

theorem written_of_notMem {slots : List β} {writes : List (Nat × β)} {i : Nat}
    (untouched : i ∉ writes.map Prod.fst) : (written slots writes)[i]? = slots[i]? := by
  induction writes generalizing slots with
  | nil => rfl
  | cons write writes ih =>
    rw [List.map_cons, List.mem_cons, not_or] at untouched
    exact (ih untouched.2).trans (List.getElem?_set_ne (fun same => untouched.1 same.symm))

theorem written_of_mem {slots : List β} {writes : List (Nat × β)}
    (once : (writes.map Prod.fst).Nodup) {i : Nat} {value : β} (among : (i, value) ∈ writes)
    (inside : i < slots.length) : (written slots writes)[i]? = some value := by
  induction writes generalizing slots with
  | nil => cases among
  | cons write writes ih =>
    obtain ⟨fresh, later⟩ := List.nodup_cons.mp once
    rcases List.mem_cons.mp among with rfl | among
    · exact (written_of_notMem fresh).trans (List.getElem?_set_self inside)
    · exact @ih (slots.set write.1 write.2) later among (by rwa [List.length_set])

end

/-- A store that answers with the object's own bytes whenever it answers. -/
def Serves (inner : Inner) (key : ObjectKey) (payload : Payload) : Prop :=
  ∀ calls range bytes, inner calls key range = .ok bytes → sliceRange key payload range = .ok bytes

namespace MergedGroup

def range (self : MergedGroup) : ByteRange := .bounded self.start (self.stop - self.start)

/-- What a member of a group is answered: the group's failure, or its own bytes. -/
def answer (inner : Inner) (key : ObjectKey) (payload : Payload) (calls : Nat)
    (self : MergedGroup) (range : ByteRange) : Except Error Payload :=
  match inner calls key self.range with
  | .ok _ => sliceRange key payload range
  | .error error => .error error

def writes (inner : Inner) (key : ObjectKey) (payload : Payload) (calls : Nat)
    (self : MergedGroup) : List (Nat × Option (Except Error Payload)) :=
  self.members.map fun m =>
    (m.index, some (self.answer inner key payload calls (.bounded m.start (m.stop - m.start))))

end MergedGroup

/-- A slice of a slice is a slice. -/
theorem slice_sliceRange {key : ObjectKey} {payload bytes : Payload} {start stop low high : Nat}
    (read : sliceRange key payload (.bounded start (stop - start)) = .ok bytes)
    (begins : start ≤ low) (within : high ≤ stop) (nonempty : low < high) :
    ∃ part, Gathering.slice bytes (low - start) (high - start) = some part ∧
      sliceRange key payload (.bounded low (high - low)) = .ok part := by
  unfold sliceRange at read ⊢
  dsimp only at read ⊢
  split at read
  case isFalse => cases read
  case isTrue fits =>
    cases read
    have lowFits : low + (high - low) ≤ u64Max ∧ low + (high - low) ≤ payload.length := by omega
    have inside : low - start ≤ high - start ∧
        high - start ≤ ((payload.drop start).take (stop - start)).length := by
      rw [List.length_take, List.length_drop]
      omega
    refine ⟨_, if_pos inside, ?_⟩
    rw [if_pos lowFits, List.drop_take, List.drop_drop, List.take_take]
    congr 2
    · omega
    · congr 1
      omega

/-- A group's fetch answers its members and nothing else. -/
theorem Gathering.fetch_eq {inner : Inner} {key : ObjectKey} {payload : Payload}
    (serves : Serves inner key payload) {group : MergedGroup} (hull : group.Hull)
    (nonempty : ∀ m ∈ group.members, m.start < m.stop) (self : Gathering) :
    self.fetch inner key group.localized = some { self with
      results := written self.results (group.writes inner key payload self.calls)
      calls := self.calls + 1 } := by
  obtain ⟨last, hlast, reaches⟩ := hull.reached
  have wide : group.stop - group.start ≠ 0 := by
    have := nonempty last hlast
    have := (hull.within last hlast).1
    omega
  have range : ByteRange.new group.localized.start (group.localized.stop - group.localized.start) =
      .ok group.range := if_neg wide
  have placed : ∀ (members : List Span) (results : List (Option (Except Error Payload))),
      (∀ m ∈ members, m ∈ group.members) →
      (members.map fun m => (⟨m.index, m.start - group.start, m.stop - group.start⟩ : Span)).foldlM
        (place (inner self.calls key group.range)) results =
      some (written results (members.map fun m => (m.index, some (group.answer inner key payload
        self.calls (.bounded m.start (m.stop - m.start)))))) := by
    intro members
    induction members with
    | nil => exact fun results _ => rfl
    | cons m members ih =>
      intro results among
      have here := hull.within m (among m (List.mem_cons_self ..))
      have some := nonempty m (among m (List.mem_cons_self ..))
      rw [List.map_cons, List.foldlM_cons, List.map_cons]
      have first : place (inner self.calls key group.range) results
          ⟨m.index, m.start - group.start, m.stop - group.start⟩ =
            Option.some (results.set m.index (Option.some (group.answer inner key payload self.calls
              (.bounded m.start (m.stop - m.start))))) := by
        unfold place MergedGroup.answer
        cases read : inner self.calls key group.range with
        | error error => rfl
        | ok bytes =>
          obtain ⟨part, sliced, same⟩ := slice_sliceRange (serves _ _ _ read) here.1 here.2 some
          dsimp only
          rw [sliced, same]
          rfl
      rw [first]
      exact ih _ fun m hm => among m (List.mem_cons_of_mem _ hm)
  unfold fetch
  rw [range]
  dsimp only
  have all := placed group.members self.results fun m hm => hm
  unfold MergedGroup.localized
  dsimp only
  rw [all]
  rfl

def planWrites (inner : Inner) (key : ObjectKey) (payload : Payload) :
    Nat → List MergedGroup → List (Nat × Option (Except Error Payload))
  | _, [] => []
  | calls, group :: rest =>
    group.writes inner key payload calls ++ planWrites inner key payload (calls + 1) rest

theorem planWrites_indices (inner : Inner) (key : ObjectKey) (payload : Payload) (calls : Nat)
    (groups : List MergedGroup) : (planWrites inner key payload calls groups).map Prod.fst =
      (groups.flatMap MergedGroup.members).map Span.index := by
  induction groups generalizing calls with
  | nil => rfl
  | cons group rest ih =>
    unfold planWrites MergedGroup.writes
    rw [List.map_append, ih, List.flatMap_cons, List.map_append, List.map_map]
    rfl

theorem mem_planWrites {inner : Inner} {key : ObjectKey} {payload : Payload} {calls k : Nat}
    {groups : List MergedGroup} {group : MergedGroup} (planned : groups[k]? = some group)
    {m : Span} (member : m ∈ group.members) :
    (m.index, some (group.answer inner key payload (calls + k)
      (.bounded m.start (m.stop - m.start)))) ∈ planWrites inner key payload calls groups := by
  induction groups generalizing calls k with
  | nil => cases planned
  | cons first rest ih =>
    cases k with
    | zero =>
      cases planned
      exact List.mem_append_left _ (List.mem_map.mpr ⟨m, member, rfl⟩)
    | succ k =>
      refine List.mem_append_right _ ?_
      have later := @ih (calls + 1) k planned
      rwa [Nat.add_assoc, Nat.add_comm 1 k] at later

theorem fetchAll_eq {inner : Inner} {key : ObjectKey} {payload : Payload}
    (serves : Serves inner key payload) {groups : List MergedGroup}
    (hulls : ∀ group ∈ groups, group.Hull)
    (nonempty : ∀ group ∈ groups, ∀ m ∈ group.members, m.start < m.stop) (self : Gathering) :
    ∃ gathered, (groups.map MergedGroup.localized).foldlM (Gathering.fetch inner key) self =
        some gathered ∧
      gathered.results = written self.results (planWrites inner key payload self.calls groups) := by
  induction groups generalizing self with
  | nil => exact ⟨self, rfl, rfl⟩
  | cons group rest ih =>
    obtain ⟨gathered, run, results⟩ := ih (fun g hg => hulls g (List.mem_cons_of_mem _ hg))
      (fun g hg => nonempty g (List.mem_cons_of_mem _ hg)) { self with
        results := written self.results (group.writes inner key payload self.calls)
        calls := self.calls + 1 }
    refine ⟨gathered, ?_, ?_⟩
    · rw [List.map_cons, List.foldlM_cons, Gathering.fetch_eq serves
        (hulls group (List.mem_cons_self ..)) (nonempty group (List.mem_cons_self ..))]
      exact run
    · rw [results]
      exact (written_append ..).symm

section
variable {order : UnstableSort Span.start} {threshold : Nat} {ranges : List ByteRange}
  {group : MergedGroup} {m : Span}

theorem range_of_member (planned : group ∈ groups order (spansOfRanges ranges) threshold)
    (member : m ∈ group.members) :
    m ∈ spansOfRanges ranges ∧ ranges[m.index]? = some (.bounded m.start (m.stop - m.start)) := by
  have all := groups_members order (spansOfRanges ranges) threshold
  have among : m ∈ spansOfRanges ranges := by
    refine (order.perm (spansOfRanges ranges)).mem_iff.mp ?_
    rw [← all]
    exact List.mem_flatMap.mpr ⟨group, planned, member⟩
  obtain ⟨length, held, stops, -⟩ := mem_spansOfRanges.mp among
  refine ⟨among, ?_⟩
  rw [held, stops, Nat.add_sub_cancel_left]

theorem lt_of_member (nonempty : ∀ range ∈ ranges, range.Nonempty)
    (planned : group ∈ groups order (spansOfRanges ranges) threshold)
    (member : m ∈ group.members) : m.start < m.stop := by
  have held := (range_of_member planned member).2
  have := nonempty _ (List.mem_of_getElem? held)
  unfold ByteRange.Nonempty at this
  dsimp only at this
  omega

theorem member_of_range {i offset length : Nat} (held : ranges[i]? = some (.bounded offset length))
    (addressed : offset + length ≤ u64Max) :
    ∃ group ∈ groups order (spansOfRanges ranges) threshold,
      ∃ m ∈ group.members, m.index = i ∧ m.start = offset ∧ m.stop = offset + length := by
  have among : (⟨i, offset, offset + length⟩ : Span) ∈ order.sort (spansOfRanges ranges) :=
    (order.perm _).mem_iff.mpr (mem_spansOfRanges.mpr ⟨length, held, rfl, addressed⟩)
  rw [← groups_members order (spansOfRanges ranges) threshold] at among
  obtain ⟨group, planned, member⟩ := List.mem_flatMap.mp among
  exact ⟨group, planned, _, member, rfl, rfl, rfl⟩

end

/-- What a batch leaves at each of its positions. -/
def Answers (inner : Inner) (key : ObjectKey) (payload : Payload) (plan : List MergedGroup)
    (ranges : List ByteRange) (results : List (Except Error Payload)) (i : Nat) :
    ByteRange → Prop
  | .full => results[i]? = some (inner (fulls (ranges.take i)) key .full)
  | .bounded offset length =>
    if offset + length ≤ u64Max then
      ∃ k group, plan[k]? = some group ∧ i ∈ group.members.map Span.index ∧
        match inner (fulls ranges + k) key group.range with
        | .error error => results[i]? = some (.error error)
        | .ok _ => ∃ bytes, results[i]? = some (.ok bytes) ∧
            sliceRange key payload (.bounded offset length) = .ok bytes
    else results[i]? = some (.error (.byteRangeOutOfBounds key offset length u64Max))

/-- Every position of a batch answers what its own read would, or its group's failure. -/
theorem getMany_answers (order : UnstableSort Span.start) (threshold : Nat) {inner : Inner}
    {key : ObjectKey} {payload : Payload} (serves : Serves inner key payload)
    {ranges : List ByteRange} (nonempty : ∀ range ∈ ranges, range.Nonempty) :
    ∃ results, getMany order inner threshold key ranges = some results ∧
      results.length = ranges.length ∧ ∀ i range, ranges[i]? = some range →
        Answers inner key payload (planMerge order (spansOfRanges ranges) threshold) ranges
          results i range := by
  have before := admitted inner key ranges
  have plan := groups_members order (spansOfRanges ranges) threshold
  have hulls := groups_hull order (spansOfRanges ranges) threshold
  have wide : ∀ group ∈ groups order (spansOfRanges ranges) threshold, ∀ m ∈ group.members,
      m.start < m.stop := fun group planned m member => lt_of_member nonempty planned member
  obtain ⟨gathered, run, results⟩ := fetchAll_eq serves hulls wide
    (ranges.foldl (Gathering.admitRange inner key) {})
  rw [before.calls] at results
  have indices : ((planWrites inner key payload (fulls ranges) (groups order
      (spansOfRanges ranges) threshold)).map Prod.fst).Perm
        ((spansOfRanges ranges).map Span.index) := by
    rw [planWrites_indices, plan]
    exact (order.perm _).map _
  have once := indices.nodup_iff.mpr (spansOfRanges_indices ranges)
  refine ⟨gathered.results.map fun slot => slot.getD (.error .permanent), ?_, ?_, ?_⟩
  · unfold getMany
    dsimp only
    rw [before.spans, planMerge_eq]
    rw [run]
    rfl
  · rw [List.length_map, results, written_length, before.length]
  · intro i range held
    have unplanned : (∀ span ∈ spansOfRanges ranges, span.index ≠ i) →
        gathered.results[i]? = some (slotOf inner key (fulls (ranges.take i)) range) := by
      intro none
      rw [results, written_of_notMem, before.slots i range held]
      intro among
      obtain ⟨span, spanned, same⟩ := List.mem_map.mp (indices.mem_iff.mp among)
      exact none span spanned same
    have spanned : ∀ span ∈ spansOfRanges ranges, span.index = i →
        ∃ offset length, range = .bounded offset length ∧ offset + length ≤ u64Max := by
      intro span among same
      obtain ⟨length, there, stops, addressed⟩ := mem_spansOfRanges.mp among
      rw [same, held] at there
      exact ⟨span.start, length, Option.some.inj there, stops ▸ addressed⟩
    cases range with
    | full =>
      have slot := unplanned fun span among same => by
        obtain ⟨offset, length, other, -⟩ := spanned span among same
        cases other
      change (gathered.results.map _)[i]? = _
      rw [List.getElem?_map, slot]
      rfl
    | bounded offset length =>
      unfold Answers
      dsimp only
      split
      case isFalse far =>
        have slot := unplanned fun span among same => by
          obtain ⟨offset', length', same', addressed⟩ := spanned span among same
          cases same'
          exact far addressed
        rw [List.getElem?_map, slot]
        unfold slotOf
        dsimp only
        rw [if_neg far]
        rfl
      case isTrue addressed =>
        obtain ⟨group, planned, m, member, here, starts, stops⟩ :=
          @member_of_range order threshold ranges i offset length held addressed
        obtain ⟨k, at_⟩ := List.mem_iff_getElem?.mp planned
        have inside : m.index < (ranges.foldl (Gathering.admitRange inner key) {}).results.length := by
          rw [before.length, here]
          exact (List.getElem?_eq_some_iff.mp held).1
        have slot := written_of_mem once (mem_planWrites at_ member) inside
        rw [← results, here, starts, stops, Nat.add_sub_cancel_left] at slot
        refine ⟨k, group.localized, ?_, ?_, ?_⟩
        · rw [planMerge_eq, List.getElem?_map, at_]
          rfl
        · refine List.mem_map.mpr ⟨_, List.mem_map.mpr ⟨m, member, rfl⟩, here⟩
        · change match inner (fulls ranges + k) key group.range with
            | .error error => _
            | .ok _ => _
          unfold MergedGroup.answer at slot
          rw [List.getElem?_map, slot]
          cases read : inner (fulls ranges + k) key group.range with
          | error error => rfl
          | ok bytes =>
            have here' := (hulls group planned).within m member
            obtain ⟨part, -, same⟩ := slice_sliceRange (serves _ _ _ read) here'.1 here'.2
              (wide group planned m member)
            rw [starts, stops, Nat.add_sub_cancel_left] at same
            exact ⟨part, congrArg some same, same⟩

/-- A member's fetch succeeds when its group's far end is inside the object. -/
theorem range_of_reads {order : UnstableSort Span.start} {threshold : Nat}
    {ranges : List ByteRange} {key : ObjectKey} {payload : Payload}
    (reads : ∀ range ∈ ranges, ∃ bytes, sliceRange key payload range = .ok bytes)
    {group : MergedGroup}
    (planned : group ∈ planMerge order (spansOfRanges ranges) threshold) :
    ∃ bytes, sliceRange key payload group.range = .ok bytes := by
  rw [planMerge_eq] at planned
  obtain ⟨whole, among, rfl⟩ := List.mem_map.mp planned
  have hull := groups_hull order _ _ whole among
  obtain ⟨last, member, reaches⟩ := hull.reached
  obtain ⟨bytes, read⟩ := reads _ (List.mem_of_getElem? (range_of_member among member).2)
  have begins := (hull.within last member).1
  have fits : last.start + (last.stop - last.start) ≤ u64Max ∧
      last.start + (last.stop - last.start) ≤ payload.length := by
    unfold sliceRange at read
    dsimp only at read
    split at read
    · assumption
    · cases read
  refine ⟨(payload.drop whole.start).take (whole.stop - whole.start), if_pos ?_⟩
  change whole.start + (whole.stop - whole.start) ≤ _ ∧ whole.start + (whole.stop - whole.start) ≤ _
  omega

/-- A batch and its ranges read one by one: the plan's groups, what a store that reads
them all answers, and whose answer a failing request is. -/
theorem getMany_agrees (order : UnstableSort Span.start) (threshold : Nat) (ranges : List ByteRange)
    (nonempty : ∀ range ∈ ranges, range.Nonempty) :
    (∀ spans : List Span, (∀ span ∈ spans, span.start ≤ u64Max) →
      ((planMerge order spans threshold).flatMap fun g => g.members.map Span.index).Perm
        (spans.map Span.index) ∧
      (planMerge order spans threshold).Pairwise fun g h => g.stop + threshold < h.start) ∧
    (∀ (inner : Inner) key payload, (∀ calls, inner calls key = sliceRange key payload) →
      (∀ range ∈ ranges, ∃ bytes, sliceRange key payload range = .ok bytes) →
      getMany order inner threshold key ranges = some (ranges.map (sliceRange key payload))) ∧
    (∀ (inner : Inner) key payload, Serves inner key payload →
      ∃ results, getMany order inner threshold key ranges = some results ∧
        results.length = ranges.length ∧ ∀ i range, ranges[i]? = some range →
          Answers inner key payload (planMerge order (spansOfRanges ranges) threshold) ranges
            results i range) := by
  refine ⟨fun spans addressed => ⟨planMerge_indices .., planMerge_apart _ _ _ addressed⟩, ?_,
    fun inner key payload serves => getMany_answers order threshold serves nonempty⟩
  intro inner key payload plain reads
  have serves : Serves inner key payload := by
    intro calls range bytes read
    rw [← read, plain]
  obtain ⟨results, run, length, answers⟩ := getMany_answers order threshold serves nonempty
  rw [run]
  refine congrArg some (List.ext_getElem? fun i => ?_)
  rw [List.getElem?_map]
  cases held : ranges[i]? with
  | none =>
    rw [List.getElem?_eq_none_iff] at held
    exact List.getElem?_eq_none (length ▸ held)
  | some range =>
    have answer := answers i range held
    obtain ⟨bytes, read⟩ := reads range (List.mem_of_getElem? held)
    cases range with
    | full =>
      unfold Answers at answer
      rw [answer, plain]
      rfl
    | bounded offset stop =>
      unfold Answers at answer
      dsimp only at answer
      split at answer
      case isTrue addressed =>
        obtain ⟨k, group, planned, -, outcome⟩ := answer
        obtain ⟨fetched, whole⟩ := range_of_reads reads (List.mem_of_getElem? planned)
        rw [plain, whole] at outcome
        obtain ⟨part, here, same⟩ := outcome
        rw [here, ← same]
        rfl
      case isFalse far =>
        unfold sliceRange at read
        dsimp only at read
        rw [if_neg fun fits => far fits.1] at read
        cases read

/-- The stable sort is one of the orders the plan may be handed. -/
def UnstableSort.stable {α : Type} (key : α → Nat) : UnstableSort key where
  sort items := items.mergeSort fun a b => decide (key a ≤ key b)
  perm items := List.mergeSort_perm ..
  sorted items := by
    have ascending := @List.pairwise_mergeSort α (fun a b => decide (key a ≤ key b))
      (fun a b c ab bc => by simp only [decide_eq_true_eq] at *; omega)
      (fun a b => by simp only [Bool.or_eq_true, decide_eq_true_eq]; omega) items
    simpa only [decide_eq_true_eq] using ascending

/-- Three ranges out of order, two of them overlapping and one past a gap. -/
theorem getMany_agrees_three :
    getMany (.stable _) (fun _ key => sliceRange key [1, 2, 3, 4, 5, 6, 7]) 1 ⟨"o"⟩
        [.bounded 5 2, .bounded 1 2, .bounded 0 2] =
      some [.ok [6, 7], .ok [2, 3], .ok [1, 2]] := by
  refine (getMany_agrees (.stable _) 1 [.bounded 5 2, .bounded 1 2, .bounded 0 2] ?_).2.1
    _ ⟨"o"⟩ [1, 2, 3, 4, 5, 6, 7] (fun _ => rfl) ?_
  · simp [ByteRange.Nonempty]
  · intro range among
    rcases List.mem_cons.mp among with rfl | among
    · exact ⟨_, rfl⟩
    · rcases List.mem_cons.mp among with rfl | among
      · exact ⟨_, rfl⟩
      · rcases List.mem_singleton.mp among with rfl
        exact ⟨_, rfl⟩

end Oqueue
