import Oqueue.Compact.Merge

/-!
# What a merge writes

The regions read are pushed one for one, so a merge that is accepted is a run of
pushes whose record counts were checked object by object. The check adds in a `u32`
that stops at its greatest value, and that is the one way past it.
-/

namespace Oqueue

open Checked Footer Tiling

namespace Compact

variable {store : MergeStore} {writer : MultipartWriter} {plan : CompactionPlan}
  {security : CompactionDomain} {inputs : List ObjectRef}

theorem inside_of_parse {whole : WholeObject} {regions : List Region}
    (parsed : parseFooter whole.bytes whole.bytes.length = .ok regions) {region : Region}
    (member : region ∈ regions) : region.Typed ∧ region.Formed ∧ region.recordCount ≠ 0 ∧
      ∃ offset length, region.bytes = .bounded offset length ∧
        offset + length ≤ whole.bytes.length := by
  obtain ⟨-, valid, -, -, -, tiles⟩ := (parseFooter_eq_ok whole.sized).mp parsed
  obtain ⟨typed, formed, some⟩ := valid region member
  refine ⟨typed, formed, some, ?_⟩
  have bounds := (tiles.bounds member).2.2
  cases bytes : region.bytes with
  | full => exact absurd bytes formed.bounded
  | bounded offset length =>
    refine ⟨offset, length, rfl, ?_⟩
    have stop : region.stop = offset + length := by simp [Region.stop, bytes]
    omega

theorem cut_eq_slice {whole : WholeObject} {region : Region} {offset length : Nat}
    (bytes : region.bytes = .bounded offset length)
    (inside : offset + length ≤ whole.bytes.length) :
    cut whole.bytes offset (saturatingAdd offset length) = .ok (region.slice whole.bytes) := by
  have sum : saturatingAdd offset length = offset + length :=
    Nat.min_eq_left (inside.trans whole.sized)
  unfold cut Region.slice
  rw [sum, if_pos ⟨Nat.le_add_right .., inside⟩]
  simp [Region.stop, Region.offset, bytes]

/-- A region of the right domain is appended as the push it stands for. -/
theorem appendRegion_eq_ok {stream next : BundleStream} {region : Region} {slice : List UInt8}
    {index : Nat} (valid : security.domain.validateRegion region = .ok ()) :
    appendRegion writer plan security stream ⟨region.recordCount, none⟩ region slice index =
        .ok next ↔
      ∃ push, pushOf plan security index ⟨region, slice⟩ = .ok push ∧
        stream.call writer push = .ok next := by
  unfold appendRegion pushOf
  rw [valid, bind_ok]
  by_cases plain : (!security.domain.requiresSealing) = true
  · rw [if_pos plain, if_pos plain]
    exact ⟨fun h => ⟨_, rfl, h⟩, fun ⟨_, made, h⟩ => by cases made; exact h⟩
  · rw [if_neg plain, if_neg plain]
    cases security.resealer with
    | none => exact ⟨nofun, fun ⟨_, made, _⟩ => nomatch made⟩
    | some reseal =>
      dsimp only
      constructor
      · intro h
        obtain ⟨output, resealed, h⟩ := bind_eq_ok.mp h
        obtain ⟨⟨⟩, validated, h⟩ := bind_eq_ok.mp h
        refine ⟨.ciphered plan.topic plan.partition ⟨region.recordCount, none⟩ output, ?_, h⟩
        rw [resealed, bind_ok, validated]
        rfl
      · rintro ⟨push, made, h⟩
        obtain ⟨output, resealed, made⟩ := bind_eq_ok.mp made
        obtain ⟨⟨⟩, validated, made⟩ := bind_eq_ok.mp made
        cases made
        rw [resealed, bind_ok, validated]
        exact h

/-- What is read of a region: nothing if it is another partition's. -/
theorem takeRegion_eq_ok {whole : WholeObject} {self next : Taking} {region : Region}
    (inside : ∃ offset length, region.bytes = .bounded offset length ∧
      offset + length ≤ whole.bytes.length) (mine : region.key = plan.key) :
    takeRegion writer plan security whole.bytes self region = .ok next ↔
      ∃ push, pushOf plan security self.nextOutputRegion ⟨region, region.slice whole.bytes⟩ =
          .ok push ∧
        ∃ stream, self.stream.call writer push = .ok stream ∧ next = ⟨stream,
          min (self.nextOutputRegion + 1) u32Max, min (self.taken + region.recordCount) u32Max⟩ := by
  obtain ⟨offset, length, bytes, bounds⟩ := inside
  have same : ¬(region.topic ≠ plan.topic ∨ region.partition ≠ plan.partition) := by
    obtain ⟨topic, partition⟩ := Prod.mk.inj mine
    rintro (other | other)
    · exact other topic
    · exact other partition
  unfold takeRegion
  rw [if_neg same, bytes]
  constructor
  · intro h
    obtain ⟨⟨⟩, valid, h⟩ := bind_eq_ok.mp h
    obtain ⟨slice, sliced, h⟩ := bind_eq_ok.mp h
    obtain ⟨stream, appended, h⟩ := bind_eq_ok.mp h
    cases h
    rw [cut_eq_slice bytes bounds] at sliced
    cases sliced
    obtain ⟨push, made, called⟩ := (appendRegion_eq_ok valid).mp appended
    exact ⟨push, made, stream, called, rfl⟩
  · rintro ⟨push, made, stream, called, rfl⟩
    have valid : security.domain.validateRegion region = .ok () := by
      obtain ⟨⟨⟩, valid, -⟩ := bind_eq_ok.mp made
      exact valid
    rw [valid, bind_ok]
    dsimp only
    rw [cut_eq_slice bytes bounds, bind_ok, (appendRegion_eq_ok valid).mpr ⟨push, made, called⟩]
    rfl

theorem takeRegion_other {bytes : List UInt8} {self : Taking} {region : Region}
    (other : region.key ≠ plan.key) :
    takeRegion writer plan security bytes self region = .ok self := by
  refine if_pos ?_
  by_contra same
  rw [not_or, not_not, not_not] at same
  exact other (Prod.ext same.1 same.2)

theorem cap_add (a b cap : Nat) : min (min a cap + b) cap = min (a + b) cap := by omega

theorem pushesOf_eq_ok_cons {index : Nat} {source : Source} {rest : List Source}
    {pushes : List Push} : pushesOf plan security index (source :: rest) = .ok pushes ↔
      ∃ push, pushOf plan security index source = .ok push ∧
        ∃ later, pushesOf plan security (min (index + 1) u32Max) rest = .ok later ∧
          pushes = push :: later := by
  rw [pushesOf, bind_eq_ok]
  simp only [bind_eq_ok]
  constructor
  · rintro ⟨push, made, later, others, h⟩
    cases h
    exact ⟨push, made, later, others, rfl⟩
  · rintro ⟨push, made, later, others, rfl⟩
    exact ⟨push, made, later, others, rfl⟩

theorem length_pushesOf {index : Nat} {sources : List Source} {pushes : List Push}
    (h : pushesOf plan security index sources = .ok pushes) : pushes.length = sources.length := by
  induction sources generalizing index pushes with
  | nil =>
    cases h
    rfl
  | cons source rest ih =>
    obtain ⟨push, -, later, others, rfl⟩ := pushesOf_eq_ok_cons.mp h
    rw [List.length_cons, List.length_cons, ih others]

theorem pushesOf_append {index : Nat} (small : index ≤ u32Max) {front back : List Source}
    {pushes : List Push} : pushesOf plan security index (front ++ back) = .ok pushes ↔
      ∃ before, pushesOf plan security index front = .ok before ∧
        ∃ after, pushesOf plan security (min (index + front.length) u32Max) back = .ok after ∧
          pushes = before ++ after := by
  induction front generalizing index pushes with
  | nil =>
    have same : min (index + 0) u32Max = index := Nat.min_eq_left small
    rw [List.nil_append, List.length_nil, same]
    constructor
    · intro h
      exact ⟨[], rfl, pushes, h, rfl⟩
    · rintro ⟨before, none, after, h, rfl⟩
      cases none
      exact h
  | cons source rest ih =>
    have next : min (min (index + 1) u32Max + rest.length) u32Max =
        min (index + (source :: rest).length) u32Max := by
      rw [cap_add, List.length_cons]
      congr 1
      omega
    rw [List.cons_append, pushesOf_eq_ok_cons]
    simp only [pushesOf_eq_ok_cons, ih (Nat.min_le_right ..), next]
    constructor
    · rintro ⟨push, made, later, ⟨before, front, after, back, rfl⟩, rfl⟩
      exact ⟨_, ⟨push, made, before, front, rfl⟩, after, back, rfl⟩
    · rintro ⟨_, ⟨push, made, before, front, rfl⟩, after, back, rfl⟩
      exact ⟨push, made, _, ⟨before, front, after, back, rfl⟩, rfl⟩

/-- The regions of one object are pushed in its order, and counted up to the cap. -/
theorem takeRegions_eq_ok {whole : WholeObject} {regions : List Region} {self next : Taking}
    (inside : ∀ region ∈ regions, ∃ offset length, region.bytes = .bounded offset length ∧
      offset + length ≤ whole.bytes.length)
    (small : self.nextOutputRegion ≤ u32Max ∧ self.taken ≤ u32Max) (sources : List Source)
    (read : sources = (regions.filter fun region => decide (region.key = plan.key)).map
      fun region => ⟨region, region.slice whole.bytes⟩) :
    regions.foldlM (takeRegion writer plan security whole.bytes) self = .ok next ↔
      ∃ pushes, pushesOf plan security self.nextOutputRegion sources = .ok pushes ∧
        ∃ stream, pushes.foldlM (BundleStream.call writer) self.stream = .ok stream ∧
          next = ⟨stream, min (self.nextOutputRegion + sources.length) u32Max,
            min (self.taken + recordsIn sources) u32Max⟩ := by
  induction regions generalizing self sources with
  | nil =>
    subst read
    have nextSame : min (self.nextOutputRegion + 0) u32Max = self.nextOutputRegion :=
      Nat.min_eq_left small.1
    have takenSame : min (self.taken + 0) u32Max = self.taken := Nat.min_eq_left small.2
    constructor
    · intro h
      obtain rfl := Except.ok.inj h
      exact ⟨[], rfl, _, rfl, (congrArg₂ (Taking.mk _) nextSame takenSame).symm⟩
    · rintro ⟨pushes, none, stream, ran, rfl⟩
      cases none
      cases ran
      exact congrArg Except.ok (congrArg₂ (Taking.mk self.stream) nextSame takenSame).symm
  | cons region rest ih =>
    have later := fun r h => inside r (List.mem_cons_of_mem _ h)
    rw [List.foldlM_cons, bind_eq_ok]
    by_cases mine : region.key = plan.key
    · rw [List.filter_cons_of_pos (by simpa using mine), List.map_cons] at read
      subst read
      have here := inside region (List.mem_cons_self ..)
      simp only [takeRegion_eq_ok here mine, pushesOf_eq_ok_cons]
      constructor
      · rintro ⟨_, ⟨push, made, stream, called, rfl⟩, h⟩
        obtain ⟨pushes, others, last, ran, rfl⟩ := (ih later
          ⟨Nat.min_le_right .., Nat.min_le_right ..⟩ _ rfl).mp h
        refine ⟨_, ⟨push, made, pushes, others, rfl⟩, last, ?_, ?_⟩
        · rw [List.foldlM_cons, called, bind_ok]
          exact ran
        · dsimp only
          rw [cap_add, cap_add]
          simp [recordsIn, Nat.add_assoc, Nat.add_comm 1]
      · rintro ⟨_, ⟨push, made, pushes, others, rfl⟩, last, ran, rfl⟩
        rw [List.foldlM_cons, bind_eq_ok] at ran
        obtain ⟨stream, called, ran⟩ := ran
        refine ⟨_, ⟨push, made, stream, called, rfl⟩, (ih later
          ⟨Nat.min_le_right .., Nat.min_le_right ..⟩ _ rfl).mpr ⟨pushes, others, last, ran, ?_⟩⟩
        dsimp only
        rw [cap_add, cap_add]
        simp [recordsIn, Nat.add_assoc, Nat.add_comm 1]
    · rw [List.filter_cons_of_neg (by simpa using mine)] at read
      simp only [takeRegion_other mine, Except.ok.injEq, exists_eq_left']
      exact ih later small _ read

def inRange (plan : CompactionPlan) (reference : ObjectRef) : Bool :=
  decide (plan.start < reference.stop) && decide (reference.baseOffset < plan.stop)

/-- The references of the inputs that the range touches, in order, are a tiling of it. -/
def TilesRange (plan : CompactionPlan) (inputs refs : List ObjectRef) : Prop :=
  refs.Perm (inputs.filter (inRange plan)) ∧ RefTiles refs plan.start plan.stop

theorem covering_eq_ok {refs kept : List ObjectRef} : covering plan refs = .ok kept ↔
    (∀ r ∈ refs, r.stop ≤ i64Max) ∧ kept = refs.filter (inRange plan) := by
  induction refs generalizing kept with
  | nil => exact ⟨fun h => ⟨by simp, (Except.ok.inj h).symm⟩, fun h => by rw [h.2]; rfl⟩
  | cons r rest ih =>
    unfold covering
    simp only [bind_eq_ok, ObjectRef.endOffset_eq_ok, ih, List.forall_mem_cons]
    have outside : r.stop ≤ plan.start ∨ plan.stop ≤ r.baseOffset ↔ ¬inRange plan r = true := by
      simp only [inRange, Bool.and_eq_true, decide_eq_true_eq]
      omega
    constructor
    · rintro ⟨_, ⟨rfl, fits⟩, _, ⟨later, rfl⟩, h⟩
      refine ⟨⟨fits, later⟩, ?_⟩
      split at h
      · rename_i out
        rw [List.filter_cons_of_neg (outside.mp out)]
        exact (Except.ok.inj h).symm
      · rename_i inside
        rw [List.filter_cons_of_pos (not_not.mp fun out => inside (outside.mpr out))]
        exact (Except.ok.inj h).symm
    · rintro ⟨⟨fits, later⟩, rfl⟩
      refine ⟨_, ⟨rfl, fits⟩, _, ⟨later, rfl⟩, ?_⟩
      split
      · rename_i out
        rw [List.filter_cons_of_neg (outside.mp out)]
        rfl
      · rename_i inside
        rw [List.filter_cons_of_pos (not_not.mp fun out => inside (outside.mpr out))]
        rfl

theorem eq_nil_of_contiguousWalk {refs : List ObjectRef} (h : contiguousWalk refs none = .ok none) :
    refs = [] := by
  cases refs with
  | nil => rfl
  | cons r rest =>
    unfold contiguousWalk at h
    obtain ⟨stop, -, h⟩ := bind_eq_ok.mp h
    split at h
    · cases h
    · obtain ⟨_, same, -⟩ := contiguousWalk_some h
      cases same

theorem covering_sorted (refs : List ObjectRef) :
    sortByBase ((sortByBase refs).filter (inRange plan)) = (sortByBase refs).filter (inRange plan) :=
  ((sortByBase_sorted refs).sublist List.filter_sublist).insertionSort_eq

/-- Exactly the lists whose references in range tile it are accepted. -/
theorem tiling_eq_ok {kept : List ObjectRef} : tiling (sortByBase inputs) plan = .ok kept ↔
    (∀ r ∈ inputs, r.stop ≤ i64Max) ∧ TilesRange plan inputs kept := by
  have perm := sortByBase_perm inputs
  have keeps : ((sortByBase inputs).filter (inRange plan)).Perm (inputs.filter (inRange plan)) :=
    perm.filter _
  have every : (∀ r ∈ sortByBase inputs, r.stop ≤ i64Max) ↔ ∀ r ∈ inputs, r.stop ≤ i64Max :=
    ⟨fun h r hr => h r (perm.symm.subset hr), fun h r hr => h r (perm.subset hr)⟩
  unfold tiling
  simp only [bind_eq_ok, covering_eq_ok, every]
  constructor
  · rintro ⟨_, ⟨fits, rfl⟩, span, spans, h⟩
    split at h
    · cases h
    rename_i meets
    rw [not_not] at meets
    cases h
    refine ⟨fits, keeps, ?_⟩
    unfold contiguousSpan at spans
    rw [covering_sorted] at spans
    cases span with
    | none =>
      rw [eq_nil_of_contiguousWalk spans]
      exact (Prod.mk.inj meets).2
    | some range =>
      obtain rfl : range = (plan.start, plan.stop) := meets
      exact (contiguousWalk_none spans).2.1
  · rintro ⟨fits, same, tiles⟩
    obtain rfl : (sortByBase inputs).filter (inRange plan) = kept :=
      (covering_sorted inputs).symm.trans (tiles.sort_eq (keeps.trans same.symm))
    refine ⟨_, ⟨fits, rfl⟩, ?_⟩
    cases found : (sortByBase inputs).filter (inRange plan) with
    | nil =>
      rw [found] at tiles
      have empty : plan.start = plan.stop := tiles
      refine ⟨none, rfl, if_neg (not_not.mpr ?_)⟩
      exact congrArg (Prod.mk plan.start) empty
    | cons r rest =>
      rw [found] at tiles
      have within : ∀ x ∈ r :: rest, x.stop ≤ i64Max := by
        intro x hx
        rw [← found] at hx
        exact fits x (perm.subset (List.mem_filter.mp hx).1)
      have wide : plan.start < plan.stop := by
        have := tiles.bounds (List.mem_cons_self ..)
        omega
      have below : plan.stop ≤ i64Max := by
        refine tiles.end_le ?_ within
        have := tiles.bounds (List.mem_cons_self ..)
        have := within r (List.mem_cons_self ..)
        omega
      have sorted : RefTiles (sortByBase (r :: rest)) plan.start plan.stop := by
        rw [← found, covering_sorted, found]
        exact tiles
      exact ⟨_, contiguousSpan_of_tiles sorted wide below, if_neg (not_not.mpr rfl)⟩

/-- A reference whose object can be read, and was counted up to the cap. -/
def Counted (get : ObjectKey → Except Error WholeObject) (plan : CompactionPlan)
    (reference : ObjectRef) : Prop :=
  ∃ sources, sourcesOf get plan reference = .ok sources ∧
    min (recordsIn sources) u32Max = reference.recordCount

theorem held_eq {get : ObjectKey → Except Error WholeObject} {reference : ObjectRef}
    {sources : List Source} (read : sourcesOf get plan reference = .ok sources) :
    held get plan reference = sources := by
  unfold held
  rw [read]
  rfl

theorem gatherOne_eq_ok {self next : Gathering} {reference : ObjectRef}
    (small : self.nextOutputRegion ≤ u32Max) :
    gatherOne store writer plan security self reference = .ok next ↔
      Counted store.get plan reference ∧
        ∃ pushes, pushesOf plan security self.nextOutputRegion (held store.get plan reference) =
            .ok pushes ∧
          ∃ stream, pushes.foldlM (BundleStream.call writer) self.stream = .ok stream ∧
            next = ⟨stream,
              min (self.nextOutputRegion + (held store.get plan reference).length) u32Max,
              self.gets + 1, self.records + reference.recordCount⟩ := by
  have zero : ∀ n, min (0 + n) u32Max = min n u32Max := fun n => by rw [Nat.zero_add]
  constructor
  · intro h
    obtain ⟨whole, got, h⟩ := bind_eq_ok.mp h
    obtain ⟨taking, took, h⟩ := bind_eq_ok.mp h
    cases h
    obtain ⟨regions, parsed, took⟩ := bind_eq_ok.mp took
    obtain ⟨last, ran, took⟩ := bind_eq_ok.mp took
    split at took
    · cases took
    rename_i counted
    cases took
    obtain ⟨pushes, made, stream, called, rfl⟩ := (takeRegions_eq_ok
      (fun region h => (inside_of_parse parsed h).2.2.2) ⟨small, Nat.zero_le _⟩ _ rfl).mp ran
    have read : sourcesOf store.get plan reference = .ok _ :=
      bind_eq_ok.mpr ⟨whole, got, bind_eq_ok.mpr ⟨regions, parsed, rfl⟩⟩
    rw [held_eq read]
    rw [not_not] at counted
    refine ⟨⟨_, read, ?_⟩, pushes, made, stream, called, ?_⟩
    · rw [← zero]
      exact counted
    · rw [← counted]
  · rintro ⟨⟨sources, read, counted⟩, pushes, made, stream, called, rfl⟩
    rw [held_eq read] at made ⊢
    obtain ⟨whole, got, read⟩ := bind_eq_ok.mp read
    obtain ⟨regions, parsed, read⟩ := bind_eq_ok.mp read
    cases read
    have ran := (@takeRegions_eq_ok writer plan security whole regions
      ⟨self.stream, self.nextOutputRegion, 0⟩ _
      (fun region h => (inside_of_parse parsed h).2.2.2) ⟨small, Nat.zero_le _⟩ _ rfl).mpr
      ⟨pushes, made, stream, called, rfl⟩
    refine bind_eq_ok.mpr ⟨whole, got, bind_eq_ok.mpr ⟨_, bind_eq_ok.mpr ⟨regions, parsed,
      bind_eq_ok.mpr ⟨_, ran, if_neg (not_not.mpr ?_)⟩⟩, ?_⟩⟩
    · dsimp only
      rw [zero]
      exact counted
    · dsimp only
      rw [zero, counted]
      rfl

/-- References are gathered exactly when each is counted and all their regions pushed. -/
theorem gathers_eq_ok {refs : List ObjectRef} {self next : Gathering}
    (small : self.nextOutputRegion ≤ u32Max) :
    refs.foldlM (gatherOne store writer plan security) self = .ok next ↔
      (∀ r ∈ refs, Counted store.get plan r) ∧
        ∃ pushes, pushesOf plan security self.nextOutputRegion
            (refs.flatMap (held store.get plan)) = .ok pushes ∧
          ∃ stream, pushes.foldlM (BundleStream.call writer) self.stream = .ok stream ∧
            next = ⟨stream,
              min (self.nextOutputRegion + (refs.flatMap (held store.get plan)).length) u32Max,
              self.gets + refs.length, self.records + (refs.map ObjectRef.recordCount).sum⟩ := by
  induction refs generalizing self next with
  | nil =>
    have same : min (self.nextOutputRegion + 0) u32Max = self.nextOutputRegion :=
      Nat.min_eq_left small
    constructor
    · intro h
      obtain rfl := Except.ok.inj h
      refine ⟨by simp, [], rfl, _, rfl, ?_⟩
      rw [List.flatMap_nil, List.length_nil, same]
      rfl
    · rintro ⟨-, pushes, none, stream, ran, rfl⟩
      cases none
      cases ran
      rw [List.flatMap_nil, List.length_nil, same]
      rfl
  | cons r rest ih =>
    rw [List.foldlM_cons, bind_eq_ok, List.forall_mem_cons, List.flatMap_cons]
    simp only [gatherOne_eq_ok small, pushesOf_append small]
    constructor
    · rintro ⟨_, ⟨counted, pushes, made, stream, called, rfl⟩, h⟩
      obtain ⟨later, after, others, last, ran, rfl⟩ := (ih (Nat.min_le_right ..)).mp h
      refine ⟨⟨counted, later⟩, _, ⟨pushes, made, after, others, rfl⟩, last, ?_, ?_⟩
      · rw [List.foldlM_append, called, bind_ok]
        exact ran
      · dsimp only
        rw [cap_add]
        simp [Nat.add_assoc, Nat.add_comm 1]
    · rintro ⟨⟨counted, later⟩, _, ⟨pushes, made, after, others, rfl⟩, last, ran, rfl⟩
      rw [List.foldlM_append, bind_eq_ok] at ran
      obtain ⟨stream, called, ran⟩ := ran
      refine ⟨_, ⟨counted, pushes, made, stream, called, rfl⟩,
        (ih (Nat.min_le_right ..)).mpr ⟨later, after, others, last, ran, ?_⟩⟩
      dsimp only
      rw [cap_add]
      simp [Nat.add_assoc, Nat.add_comm 1]

/-- A builder seals the pushes, into an object of some size a `u64` holds. -/
def Sealable (pushes : List Push) : Prop :=
  ∃ builder object, pushes.foldlM BundleBuilder.call {} = .ok builder ∧
    builder.seal = .ok object ∧ object.payload.length ≤ u64Max

theorem pushOf_spec {index : Nat} {source : Source} {push : Push}
    (made : pushOf plan security index source = .ok push) : push.topic = plan.topic ∧
      push.partition = plan.partition ∧ push.pushed = ⟨source.region.recordCount, none⟩ ∧
      (push.envelope = none ↔ security.domain.requiresSealing = false) := by
  obtain ⟨⟨⟩, -, made⟩ := bind_eq_ok.mp made
  split at made
  · rename_i plain
    cases made
    simp only [Bool.not_eq_true'] at plain
    exact ⟨rfl, rfl, rfl, iff_of_true rfl plain⟩
  · rename_i ciphered
    split at made
    · cases made
    · obtain ⟨output, -, made⟩ := bind_eq_ok.mp made
      obtain ⟨⟨⟩, -, made⟩ := bind_eq_ok.mp made
      cases made
      simp only [Bool.not_eq_true'] at ciphered
      exact ⟨rfl, rfl, rfl, iff_of_false nofun ciphered⟩

/-- Each source is pushed where it stands. -/
theorem pushesOf_get {index : Nat} (small : index ≤ u32Max) {sources : List Source}
    {pushes : List Push} (h : pushesOf plan security index sources = .ok pushes) {i : Nat}
    {source : Source} (at_ : sources[i]? = some source) : ∃ push, pushes[i]? = some push ∧
      pushOf plan security (min (index + i) u32Max) source = .ok push := by
  induction sources generalizing index pushes i with
  | nil => cases at_
  | cons first rest ih =>
    obtain ⟨push, made, later, others, rfl⟩ := pushesOf_eq_ok_cons.mp h
    cases i with
    | zero =>
      obtain rfl : first = source := Option.some.inj at_
      have same : min (index + 0) u32Max = index := Nat.min_eq_left small
      exact ⟨push, rfl, by rw [same]; exact made⟩
    | succ i =>
      obtain ⟨push, found, made⟩ := ih (Nat.min_le_right ..) others at_
      refine ⟨push, found, ?_⟩
      have same : min (min (index + 1) u32Max + i) u32Max = min (index + (i + 1)) u32Max := by
        rw [cap_add, Nat.add_assoc, Nat.add_comm 1]
      rw [← same]
      exact made

theorem source_of_mem {index : Nat} {sources : List Source} {pushes : List Push}
    (h : pushesOf plan security index sources = .ok pushes) {push : Push} (member : push ∈ pushes) :
    ∃ source ∈ sources, ∃ i, pushOf plan security i source = .ok push := by
  induction sources generalizing index pushes with
  | nil =>
    cases h
    cases member
  | cons first rest ih =>
    obtain ⟨made, here, later, others, rfl⟩ := pushesOf_eq_ok_cons.mp h
    rcases List.mem_cons.mp member with rfl | member
    · exact ⟨first, List.mem_cons_self .., index, here⟩
    · obtain ⟨source, there, i, from_⟩ := ih others member
      exact ⟨source, List.mem_cons_of_mem _ there, i, from_⟩

theorem cipheredFirst_of_pushesOf {index : Nat} {sources : List Source} {pushes : List Push}
    (h : pushesOf plan security index sources = .ok pushes) : CipheredFirst pushes := by
  have alike : ∀ push ∈ pushes, push.envelope = none ↔ security.domain.requiresSealing = false := by
    intro push member
    obtain ⟨source, -, i, made⟩ := source_of_mem h member
    exact (pushOf_spec made).2.2.2
  refine List.Pairwise.imp_of_mem ?_ (List.pairwise_of_forall (fun _ _ => trivial))
  intro earlier later hearlier hlater _ sealed_ plain
  exact sealed_ ((alike later hlater).mpr ((alike earlier hearlier).mp plain))

/-- The bytes a stream has its writer complete. -/
theorem completed_eq_some {stream : BundleStream} {bytes : List UInt8}
    (h : completed writer stream = some bytes) : stream.regions.regions ≠ [] ∧
      Fits stream.regions.regions ∧
      bytes = stream.parts.flatten ++ stream.buffer ++ image stream.regions.regions := by
  unfold completed BundleBuilder.intoFooter at h
  by_cases none : stream.regions.regions.isEmpty = true
  · rw [if_pos none] at h
    cases h
  · rw [if_neg none] at h
    cases encoded : encodeFooter stream.regions.regions [] with
    | error refusal =>
      rw [encoded] at h
      cases h
    | ok footer =>
      rw [encoded] at h
      obtain ⟨-, fits, rfl⟩ := encodeFooter_eq_ok.mp encoded
      obtain ⟨_, footed, h⟩ := Option.bind_eq_some_iff.mp h
      cases footed
      obtain ⟨_, -, h⟩ := Option.bind_eq_some_iff.mp h
      cases h
      exact ⟨fun empty => none (List.isEmpty_iff.mpr empty), fits, by simp⟩

/-- What a run of pushes had its writer complete, if it is of a size a `u64` holds: the
object a builder seals. -/
theorem written_of_completed {pushes : List Push} {stream : BundleStream} {bytes : List UInt8}
    (first : CipheredFirst pushes)
    (called : pushes.foldlM (BundleStream.call writer) {} = .ok stream)
    (done : completed writer stream = some bytes) (small : bytes.length ≤ u64Max) :
    ∃ builder object, pushes.foldlM BundleBuilder.call {} = .ok builder ∧
      builder.seal = .ok object ∧ object.payload = bytes := by
  obtain ⟨taken, all, counted⟩ := BundleStream.calls_eq_ok called
  obtain ⟨some, fits, rfl⟩ := completed_eq_some done
  have written : stream.parts.flatten ++ stream.buffer = laid pushes := all.trans (by simp)
  rw [List.length_append, written] at small
  obtain ⟨regions, -⟩ := counted (by
    change 0 + _ ≤ _
    omega)
  have same : streamed pushes 0 0 = placed pushes 0 :=
    streamed_of_bytes ((streamed_bytes_iff taken (Nat.le_refl 0)).mpr ⟨.inl rfl, first⟩)
  have regions : stream.regions.regions = placed pushes 0 := regions.trans same
  rw [regions] at some fits ⊢
  have pushed : pushes ≠ [] := by
    rintro rfl
    exact some rfl
  obtain ⟨builder, object, accepted, sealed_, -, payload⟩ := exists_seal taken pushed fits
  exact ⟨builder, object, accepted, sealed_, payload.trans (by rw [written])⟩

theorem placed_get {pushes : List Push} {offset i : Nat} {push : Push}
    (at_ : pushes[i]? = some push) : ∃ begins, (placed pushes offset)[i]? =
      some (push.region begins) := by
  induction pushes generalizing offset i with
  | nil => cases at_
  | cons first rest ih =>
    cases i with
    | zero =>
      obtain rfl : first = push := Option.some.inj at_
      exact ⟨offset, rfl⟩
    | succ i => exact ih at_

/-- The offset each of several regions begins at, from a base on. -/
def numbered : Nat → List Nat → List Nat
  | _, [] => []
  | base, count :: rest => base :: numbered (base + count) rest

theorem numbered_append (base : Nat) (front back : List Nat) :
    numbered base (front ++ back) = numbered base front ++ numbered (base + front.sum) back := by
  induction front generalizing base with
  | nil => rfl
  | cons count rest ih =>
    rw [List.cons_append, numbered, ih, List.sum_cons, Nat.add_assoc]
    rfl

abbrev countsOf (sources : List Source) : List Nat := sources.map fun s => s.region.recordCount

/-- A reference whose object can be read, and holds the records the reference says. -/
def Agrees (get : ObjectKey → Except Error WholeObject) (plan : CompactionPlan)
    (reference : ObjectRef) : Prop :=
  ∃ sources, sourcesOf get plan reference = .ok sources ∧
    recordsIn sources = reference.recordCount

theorem numbered_tiles {get : ObjectKey → Except Error WholeObject} {refs : List ObjectRef}
    {low high : Nat} (tiles : RefTiles refs low high) (agrees : ∀ r ∈ refs, Agrees get plan r) :
    numbered low (countsOf (refs.flatMap (held get plan))) =
      refs.flatMap fun r => numbered r.baseOffset (countsOf (held get plan r)) := by
  induction refs generalizing low with
  | nil => rfl
  | cons r rest ih =>
    obtain ⟨sources, read, counts⟩ := agrees r (List.mem_cons_self ..)
    have begins : r.baseOffset = low := tiles.1
    have ends : low + (countsOf (held get plan r)).sum = r.stop := by
      rw [held_eq read, ← begins]
      exact congrArg (r.baseOffset + ·) counts
    rw [List.flatMap_cons, List.flatMap_cons, countsOf, List.map_append, numbered_append, ends,
      begins]
    congr 1
    exact ih tiles.2.2 fun x hx => agrees x (List.mem_cons_of_mem _ hx)

/-- A region of the output carries a source's records: the same bytes in the default
domain, and in a customer's what they were re-sealed to for this place of the output. -/
structure Carries (plan : CompactionPlan) (security : CompactionDomain) (object : List UInt8)
    (index : Nat) (source : Source) (region : Region) : Prop where
  key : region.key = plan.key
  recordCount : region.recordCount = source.region.recordCount
  valid : security.domain.validateRegion region = .ok ()
  bytes : match security.domain with
    | .defaultDomain => region.slice object = source.bytes
    | .customer _ => ∃ reseal output, security.resealer = some reseal ∧
        reseal ⟨security.domain, plan.topic, plan.partition, index, source.region, source.bytes⟩ =
          .ok output ∧
        region.slice object = output.bytes ∧ region.alg = output.alg ∧
        region.envelope = some output.envelope

/-- The output of a merge carries the records of the range, in offset order, each once;
its reference covers what the merged references cover. -/
structure Lossless (get : ObjectKey → Except Error WholeObject) (plan : CompactionPlan)
    (inputs : List ObjectRef) (security : CompactionDomain) (outcome : MergeOutcome)
    (output : ObjectKey) (object : List UInt8) (refs : List ObjectRef) : Prop where
  tiles : TilesRange plan inputs refs
  agrees : ∀ r ∈ refs, Agrees get plan r
  regions : ∃ regions, parseFooter object object.length = .ok regions ∧
    regions.length = (refs.flatMap (held get plan)).length ∧
    (∀ i source, (refs.flatMap (held get plan))[i]? = some source →
      ∃ region, regions[i]? = some region ∧ Carries plan security object i source region) ∧
    numbered plan.start (regions.map Region.recordCount) =
      refs.flatMap fun r => numbered r.baseOffset (countsOf (held get plan r))
  records : plan.start + outcome.records = plan.stop
  installs : covers refs [⟨output, plan.start, outcome.records⟩] = .ok ()

/-- A merge as it should be: lossless if it succeeds, and without an object where the
inputs do not tile the range or one does not hold what its reference says. -/
def Rightly (store : MergeStore) (plan : CompactionPlan) (inputs : List ObjectRef)
    (security : CompactionDomain) (namer : CompactionNamer) : Prop :=
  let merged := mergeInDomain store plan inputs namer security
  -- an object's size is a `u64`
  (∀ output object, merged.object = some (output, object) → object.length ≤ u64Max) →
    (∀ outcome, merged.result = .ok outcome → ∃ output object refs,
      outcome.object = some output ∧ merged.object = some (output, object) ∧
        Lossless store.get plan inputs security outcome output object refs) ∧
    ((¬∃ refs, TilesRange plan inputs refs) ∨
        (∃ r ∈ inputs, inRange plan r = true ∧ ¬Agrees store.get plan r) →
      (∃ refusal, merged.result = .error refusal) ∧ merged.object = none)

/-- What gets past the check: everything else about the merge is in order, and an object
of more records than a `u32` counts is named by a reference of as many as it counts. -/
def Miscounted (get : ObjectKey → Except Error WholeObject) (plan : CompactionPlan)
    (inputs : List ObjectRef) (security : CompactionDomain) : Prop :=
  ∃ refs, TilesRange plan inputs refs ∧ (∀ r ∈ inputs, r.stop ≤ i64Max) ∧
    (∀ r ∈ refs, Counted get plan r) ∧
    (∃ pushes, pushesOf plan security 0 (refs.flatMap (held get plan)) = .ok pushes ∧
      Sealable pushes) ∧
    ∃ r ∈ refs, u32Max < recordsIn (held get plan r)

theorem completed_of_finish {stream : BundleStream} {spans : List CommittedSpan} {cost : Written}
    {bytes : List UInt8} (h : stream.finish writer = .ok (spans, cost, bytes)) :
    completed writer stream = some bytes := by
  obtain ⟨⟨footer, made⟩, footed, h⟩ := bind_eq_ok.mp h
  obtain ⟨⟨⟩, wrote, h⟩ := bind_eq_ok.mp h
  obtain ⟨⟨⟩, -, h⟩ := bind_eq_ok.mp h
  cases h
  unfold completed
  rw [footed]
  simp only [Except.toOption, Option.bind_eq_bind, Option.bind_some, wrote]
  rfl

/-- What a merge went through that had its writer complete an object. -/
structure Went (store : MergeStore) (plan : CompactionPlan) (inputs : List ObjectRef)
    (security : CompactionDomain) (output : ObjectKey) (bytes : List UInt8)
    (refs : List ObjectRef) (pushes : List Push) : Prop where
  fits : ∀ r ∈ inputs, r.stop ≤ i64Max
  tiles : TilesRange plan inputs refs
  counted : ∀ r ∈ refs, Counted store.get plan r
  pushed : pushesOf plan security 0 (refs.flatMap (held store.get plan)) = .ok pushes
  wrote : ∃ stream,
    pushes.foldlM (BundleStream.call (store.openMultipart output)) {} = .ok stream ∧
      completed (store.openMultipart output) stream = some bytes

theorem gather_eq_ok {gathered : Gathering} :
    BundleStream.start writer >>= gather store writer plan inputs security = .ok gathered ↔
      writer.opened = .ok () ∧ ∃ refs, ((∀ r ∈ inputs, r.stop ≤ i64Max) ∧
        TilesRange plan inputs refs) ∧ (∀ r ∈ refs, Counted store.get plan r) ∧
        ∃ pushes, pushesOf plan security 0 (refs.flatMap (held store.get plan)) = .ok pushes ∧
          ∃ stream, pushes.foldlM (BundleStream.call writer) {} = .ok stream ∧
            gathered = ⟨stream, min (0 + (refs.flatMap (held store.get plan)).length) u32Max,
              0 + refs.length, 0 + (refs.map ObjectRef.recordCount).sum⟩ := by
  unfold BundleStream.start gather
  simp only [bind_eq_ok, tiling_eq_ok]
  constructor
  · rintro ⟨_, ⟨⟨⟩, opened, started⟩, refs, tiles, gathers⟩
    cases started
    exact ⟨opened, refs, tiles, (gathers_eq_ok (Nat.zero_le _)).mp gathers⟩
  · rintro ⟨opened, refs, tiles, gathers⟩
    exact ⟨_, ⟨(), opened, rfl⟩, refs, tiles, (gathers_eq_ok (Nat.zero_le _)).mpr gathers⟩

theorem went_of_object {namer : CompactionNamer} {output : ObjectKey} {bytes : List UInt8}
    (h : (mergeInDomain store plan inputs namer security).object = some (output, bytes)) :
    ∃ refs pushes, Went store plan inputs security output bytes refs pushes := by
  unfold mergeInDomain at h
  rcases hkey : namer.nextKey with ⟨answer, after⟩
  rw [hkey] at h
  cases answer with
  | error refusal => cases h
  | ok output =>
    dsimp only at h
    split at h
    · cases h
    rename_i gathered hgather
    obtain ⟨-, refs, ⟨fits, tiles⟩, counted, pushes, pushed, stream, called, rfl⟩ :=
      gather_eq_ok.mp hgather
    obtain ⟨_, done, same⟩ := Option.map_eq_some_iff.mp h
    cases same
    exact ⟨refs, pushes, fits, tiles, counted, pushed, stream, called, done⟩

theorem went_of_ok {namer : CompactionNamer} {outcome : MergeOutcome}
    (h : (mergeInDomain store plan inputs namer security).result = .ok outcome) :
    ∃ output bytes refs pushes,
      (mergeInDomain store plan inputs namer security).object = some (output, bytes) ∧
        Went store plan inputs security output bytes refs pushes ∧
        outcome.object = some output ∧
        outcome.records = (refs.map ObjectRef.recordCount).sum := by
  unfold mergeInDomain at h ⊢
  rcases hkey : namer.nextKey with ⟨answer, after⟩
  rw [hkey] at h
  cases answer with
  | error refusal => cases h
  | ok output =>
    dsimp only at h ⊢
    split at h
    · cases h
    rename_i gathered hgather
    obtain ⟨-, refs, ⟨fits, tiles⟩, counted, pushes, pushed, stream, called, rfl⟩ :=
      gather_eq_ok.mp hgather
    obtain ⟨⟨spans, cost, bytes⟩, finished, h⟩ := bind_eq_ok.mp h
    have done := completed_of_finish finished
    cases h
    refine ⟨output, bytes, refs, pushes, ?_, ⟨fits, tiles, counted, pushed, stream, called, done⟩,
      rfl, Nat.zero_add _⟩
    dsimp only
    rw [done]
    rfl

theorem source_typed {get : ObjectKey → Except Error WholeObject} {refs : List ObjectRef}
    {source : Source} (member : source ∈ refs.flatMap (held get plan)) :
    source.region.Typed ∧ source.region.key = plan.key := by
  obtain ⟨r, -, hsource⟩ := List.mem_flatMap.mp member
  unfold held at hsource
  cases read : sourcesOf get plan r with
  | error refusal =>
    rw [read] at hsource
    cases hsource
  | ok sources =>
    rw [read] at hsource
    obtain ⟨whole, got, read⟩ := bind_eq_ok.mp read
    obtain ⟨regions, parsed, read⟩ := bind_eq_ok.mp read
    cases read
    obtain ⟨region, hregion, rfl⟩ := List.mem_map.mp hsource
    obtain ⟨member, mine⟩ := List.mem_filter.mp hregion
    exact ⟨(inside_of_parse parsed member).1, of_decide_eq_true mine⟩

theorem validateRegion_of_resealed {domain : KeyDomain} {output : SealedRegion} {region : Region}
    (h : domain.validateResealed output = .ok ()) (alg : region.alg = output.alg)
    (envelope : region.envelope = some output.envelope) : domain.validateRegion region = .ok () := by
  unfold KeyDomain.validateResealed at h
  unfold KeyDomain.validateRegion
  split at h
  · cases h
  rename_i agrees
  rw [not_or] at agrees
  rw [alg, envelope, if_neg agrees.1, if_neg]
  simpa using agrees.2

theorem carries_of_push {object : List UInt8} {index begins : Nat} {source : Source} {push : Push}
    (made : pushOf plan security index source = .ok push)
    (cuts : (push.region begins).slice object = push.bytes) :
    Carries plan security object index source (push.region begins) := by
  obtain ⟨topic, partition, pushed, -⟩ := pushOf_spec made
  have key : (push.region begins).key = plan.key := Prod.ext topic partition
  have recordCount : (push.region begins).recordCount = source.region.recordCount := by
    change push.pushed.count = _
    rw [pushed]
  obtain ⟨⟨⟩, valid, made⟩ := bind_eq_ok.mp made
  split at made
  · rename_i plain
    cases made
    cases domain : security.domain with
    | customer keyId =>
      rw [domain] at plain
      cases plain
    | defaultDomain =>
      refine ⟨key, recordCount, ?_, ?_⟩
      · rw [domain]
        exact KeyDomain.validateRegion_eq_ok.mpr rfl
      · rw [domain]
        exact cuts
  · rename_i ciphered
    split at made
    · cases made
    rename_i reseal held
    obtain ⟨output, resealed, made⟩ := bind_eq_ok.mp made
    obtain ⟨⟨⟩, validated, made⟩ := bind_eq_ok.mp made
    cases made
    refine ⟨key, recordCount, validateRegion_of_resealed validated rfl rfl, ?_⟩
    cases domain : security.domain with
    | defaultDomain =>
      rw [domain] at ciphered
      exact absurd rfl ciphered
    | customer keyId =>
      dsimp only
      rw [← domain]
      exact ⟨reseal, output, held, resealed, cuts, rfl, rfl⟩

/-- A merge that succeeds on objects that hold what their references say is lossless. -/
theorem lossless_of_went {outcome : MergeOutcome} {output : ObjectKey} {bytes : List UInt8}
    {refs : List ObjectRef} {pushes : List Push}
    (went : Went store plan inputs security output bytes refs pushes)
    (records : outcome.records = (refs.map ObjectRef.recordCount).sum)
    (small : bytes.length ≤ u64Max) (agrees : ∀ r ∈ refs, Agrees store.get plan r) :
    Lossless store.get plan inputs security outcome output bytes refs := by
  obtain ⟨stream, called, done⟩ := went.wrote
  obtain ⟨builder, object, accepted, sealed_, rfl⟩ := written_of_completed
    (cipheredFirst_of_pushesOf went.pushed) called done small
  have typed : ∀ push ∈ pushes, push.Typed := by
    intro push member
    obtain ⟨source, hsource, i, made⟩ := source_of_mem went.pushed member
    obtain ⟨typed, mine⟩ := source_typed hsource
    obtain ⟨topic, partition, pushed, -⟩ := pushOf_spec made
    obtain ⟨sameTopic, samePartition⟩ := Prod.mk.inj mine
    refine ⟨?_, ?_, ?_⟩
    · rw [topic, ← sameTopic]
      exact typed.topic
    · rw [partition, ← samePartition]
      exact typed.partition
    · rw [pushed]
      exact typed.recordCount
  obtain ⟨regions, cuts, parsed⟩ := whole_reads_back typed accepted sealed_ small
  obtain ⟨-, -, nonempty, -, fits, -⟩ := seal_of_calls accepted sealed_
  have count : object.regions.length = (refs.flatMap (held store.get plan)).length := by
    rw [regions, length_placed, length_pushesOf went.pushed]
  have carried : ∀ i source, (refs.flatMap (held store.get plan))[i]? = some source →
      ∃ region, object.regions[i]? = some region ∧
        Carries plan security object.payload i source region := by
    intro i source at_
    obtain ⟨push, found, made⟩ := pushesOf_get (Nat.zero_le _) went.pushed at_
    obtain ⟨begins, place⟩ := @placed_get _ 0 _ _ found
    rw [← regions] at place
    refine ⟨push.region begins, place, carries_of_push ?_ ?_⟩
    · have below : i < 2 ^ 32 := by
        have := (List.getElem?_eq_some_iff.mp at_).1
        have := fits.2
        omega
      have same : min (0 + i) u32Max = i := by
        unfold u32Max
        omega
      rw [← same]
      exact made
    · have both := congrArg (·[i]?) cuts
      simp only [List.getElem?_map, place, found, Option.map_some, Option.some.injEq] at both
      exact both
  have counts : object.regions.map Region.recordCount =
      countsOf (refs.flatMap (held store.get plan)) := by
    refine List.ext_getElem? fun i => ?_
    rw [List.getElem?_map, List.getElem?_map]
    cases at_ : (refs.flatMap (held store.get plan))[i]? with
    | none =>
      rw [List.getElem?_eq_none (count ▸ List.getElem?_eq_none_iff.mp at_)]
      rfl
    | some source =>
      obtain ⟨region, place, carries⟩ := carried i source at_
      rw [place]
      exact congrArg Option.some carries.recordCount
  have width : plan.start + outcome.records = plan.stop := by
    have sum := went.tiles.2.sum_width
    rw [records, ← sum]
    congr 2
    refine List.map_congr_left fun r _ => ?_
    exact (Nat.add_sub_cancel_left ..).symm
  have some_ : refs ≠ [] := by
    rintro rfl
    refine nonempty (List.length_eq_zero_iff.mp ?_)
    rw [count]
    rfl
  obtain ⟨r, hr⟩ := List.exists_mem_of_ne_nil _ some_
  have bounds := went.tiles.2.bounds hr
  have below : plan.stop ≤ i64Max := by
    refine went.tiles.2.end_le ?_ fun x hx => ?_
    · have := went.fits r (List.mem_filter.mp (went.tiles.1.subset hr)).1
      omega
    · exact went.fits x (List.mem_filter.mp (went.tiles.1.subset hx)).1
  refine ⟨went.tiles, agrees, ⟨object.regions, parsed, count, carried, ?_⟩, width, ?_⟩
  · rw [counts]
    exact numbered_tiles went.tiles.2 agrees
  · refine covers_of_tiles ?_ ?_ (by omega : plan.start < plan.stop) below
    · rw [sortByBase, went.tiles.2.sort_eq (List.Perm.refl _)]
      exact went.tiles.2
    · refine ⟨rfl, ?_, width⟩
      change plan.start < plan.start + outcome.records
      omega

theorem agrees_of_went {output : ObjectKey} {bytes : List UInt8} {refs : List ObjectRef}
    {pushes : List Push} (went : Went store plan inputs security output bytes refs pushes)
    (small : bytes.length ≤ u64Max) (exact_ : ¬Miscounted store.get plan inputs security) :
    ∀ r ∈ refs, Agrees store.get plan r := by
  intro r hr
  obtain ⟨sources, read, counts⟩ := went.counted r hr
  refine ⟨sources, read, ?_⟩
  by_contra differs
  have past : u32Max < recordsIn sources := by omega
  obtain ⟨stream, called, done⟩ := went.wrote
  obtain ⟨builder, object, accepted, sealed_, rfl⟩ := written_of_completed
    (cipheredFirst_of_pushesOf went.pushed) called done small
  refine exact_ ⟨refs, went.tiles, went.fits, went.counted,
    ⟨pushes, went.pushed, builder, object, accepted, sealed_, small⟩, r, hr, ?_⟩
  rw [held_eq read]
  exact past

theorem merged_of_gathered {namer after : CompactionNamer} {output : ObjectKey}
    {gathered : Gathering} (named : namer.nextKey = (.ok output, after))
    (h : BundleStream.start (store.openMultipart output) >>=
      gather store (store.openMultipart output) plan inputs security = .ok gathered) :
    mergeInDomain store plan inputs namer security =
      { result := do
          let (spans, written, _) ← gathered.stream.finish (store.openMultipart output)
          return ⟨gathered.gets, 1, gathered.records, spans, written, some output⟩
        object := (completed (store.openMultipart output) gathered.stream).map
          fun bytes => (output, bytes)
        namer := after } := by
  unfold mergeInDomain
  rw [named]
  dsimp only
  rw [h]

/-- A writer that takes whatever it is handed lets a miscounted merge through. -/
theorem succeeds_of_miscounted {get : ObjectKey → Except Error WholeObject}
    (miscounted : Miscounted get plan inputs security) : ∃ namer outcome,
      (mergeInDomain ⟨get, fun _ => takingWriter⟩ plan inputs namer security).result =
        .ok outcome ∧
      ∀ output object,
        (mergeInDomain ⟨get, fun _ => takingWriter⟩ plan inputs namer security).object =
          some (output, object) → object.length ≤ u64Max := by
  obtain ⟨refs, tiles, fits, counted, ⟨pushes, pushed, builder, object, accepted, sealed_, small⟩,
    -⟩ := miscounted
  obtain ⟨cost, wrote⟩ := agrees_of_cipheredFirst takingWriter_accepting accepted sealed_ small
    (cipheredFirst_of_pushesOf pushed)
  obtain ⟨_, started, wrote⟩ := bind_eq_ok.mp wrote
  cases started
  obtain ⟨stream, called, finished⟩ := bind_eq_ok.mp wrote
  have gathered := (@gather_eq_ok ⟨get, fun _ => takingWriter⟩ takingWriter plan security inputs _).mpr
    ⟨rfl, refs, ⟨fits, tiles⟩, counted, pushes, pushed, stream, called, rfl⟩
  have done := completed_of_finish finished
  have named : CompactionNamer.nextKey ⟨"w", 0⟩ =
      (.ok ⟨"compacted/w/00000000000000000000"⟩, ⟨"w", 1⟩) := by decide
  have merged := @merged_of_gathered ⟨get, fun _ => takingWriter⟩ plan security inputs _ _ _ _
    named gathered
  refine ⟨⟨"w", 0⟩, ⟨0 + refs.length, 1, 0 + (refs.map ObjectRef.recordCount).sum, object.spans, cost,
    some ⟨"compacted/w/00000000000000000000"⟩⟩, ?_, fun output bytes completes => ?_⟩
  · rw [merged, finished]
    rfl
  · rw [merged, done] at completes
    cases completes
    exact small

theorem not_rightly_of_miscounted {get : ObjectKey → Except Error WholeObject}
    (miscounted : Miscounted get plan inputs security) :
    ¬∀ openMultipart namer, Rightly ⟨get, openMultipart⟩ plan inputs security namer := by
  intro rightly
  obtain ⟨namer, outcome, succeeded, small⟩ := succeeds_of_miscounted miscounted
  obtain ⟨_, _, refs', -, -, lossless⟩ :=
    (rightly (fun _ => takingWriter) namer small).1 outcome succeeded
  obtain ⟨refs, tiles, -, counted, -, r, hr, past⟩ := miscounted
  obtain ⟨sources, read, counts⟩ := counted r hr
  obtain ⟨sources', read', agrees⟩ :=
    lossless.agrees r (lossless.tiles.1.symm.subset (tiles.1.subset hr))
  rw [held_eq read] at past
  obtain rfl := Except.ok.inj (read.symm.trans read')
  omega

theorem rightly_of_counted {get : ObjectKey → Except Error WholeObject}
    (exact_ : ¬Miscounted get plan inputs security) (openMultipart : ObjectKey → MultipartWriter)
    (namer : CompactionNamer) : Rightly ⟨get, openMultipart⟩ plan inputs security namer := by
  intro small
  refine ⟨fun outcome succeeded => ?_, fun astray => ?_⟩
  · obtain ⟨output, bytes, refs, pushes, object, went, named, records⟩ := went_of_ok succeeded
    have sized := small output bytes object
    exact ⟨output, bytes, refs, named, object,
      lossless_of_went went records sized (agrees_of_went went sized exact_)⟩
  · have none : (mergeInDomain ⟨get, openMultipart⟩ plan inputs namer security).object = none := by
      by_contra some_
      obtain ⟨⟨output, bytes⟩, object⟩ := Option.ne_none_iff_exists'.mp some_
      obtain ⟨refs, pushes, went⟩ := went_of_object object
      rcases astray with untiled | ⟨r, hr, touched, differs⟩
      · exact untiled ⟨refs, went.tiles⟩
      · refine differs (agrees_of_went went (small output bytes object) exact_ r ?_)
        exact went.tiles.1.symm.subset (List.mem_filter.mpr ⟨hr, touched⟩)
    refine ⟨?_, none⟩
    cases result : (mergeInDomain ⟨get, openMultipart⟩ plan inputs namer security).result with
    | error refusal => exact ⟨refusal, rfl⟩
    | ok outcome =>
      obtain ⟨output, bytes, _, _, object, -⟩ := went_of_ok result
      exact nomatch object.symm.trans none

/-- A merge is lossless, and refuses what it should, for every writer and every name it is
given, exactly when no object it accepts holds more records than a `u32` counts. -/
theorem merge_rightly_iff (get : ObjectKey → Except Error WholeObject) (plan : CompactionPlan)
    (inputs : List ObjectRef) (security : CompactionDomain) :
    (∀ openMultipart namer, Rightly ⟨get, openMultipart⟩ plan inputs security namer) ↔
      ¬Miscounted get plan inputs security :=
  ⟨fun rightly miscounted => not_rightly_of_miscounted miscounted rightly, rightly_of_counted⟩

def overfullTopic : TopicId := ⟨"t"⟩

/-- Two regions of one partition, the first of as many records as a `u32` counts. -/
def overfullPushes : List Push :=
  [.plain overfullTopic 0 ⟨u32Max, none⟩ [1], .plain overfullTopic 0 ⟨5, none⟩ [2]]

def laterPushes : List Push := [.plain overfullTopic 0 ⟨14, none⟩ [3]]

def objectOf (pushes : List Push) : List UInt8 := laid pushes ++ image (placed pushes 0)

def overfullGet (key : ObjectKey) : Except Error WholeObject :=
  if key.key = "x" then .ok ⟨objectOf overfullPushes, by decide⟩
  else .ok ⟨objectOf laterPushes, by decide⟩

/-- One object around a great one that does not lie inside the range planned, then a
dozen more, and a tail. -/
def overfullLog : List (List MetadataEntry) :=
  let commit (version : Nat) (object : String) (counts : List Nat) : MetadataEntry :=
    ⟨version, .batchCommitted ⟨object⟩
      (counts.map fun count => ⟨overfullTopic, 0, count, .bounded 0 1, none⟩) 1⟩
  ([commit 1 "a" [1], commit 2 "b" [u32Max], commit 3 "a" [1]] ++
    (List.range 12).map (fun i => commit (4 + i) ("c" ++ toString i) [1]) ++
    [commit 16 "b" [1], commit 17 "z" (List.replicate 128 1)]).map fun entry => [entry]

def overfullPlan : CompactionPlan :=
  ⟨overfullTopic, 0, 0, u32Max + 14, ⟨13, 1, 14, 0, none, 13, 14, some (0, u32Max + 14)⟩⟩

def overfullInputs : List ObjectRef := [⟨⟨"x"⟩, 0, u32Max⟩, ⟨⟨"y"⟩, u32Max, 14⟩]

theorem overfull_planned : (overfullLog.foldlM IndexState.apply {} >>= fun index =>
    Compact.plan index overfullTopic 0 0 (u32Max + 14)) = .ok (.planned overfullPlan) := by
  decide +kernel

theorem parse_objectOf {pushes : List Push} (taken : ∀ push ∈ pushes, push.Taken)
    (typed : ∀ push ∈ pushes, push.Typed) (some_ : pushes ≠ []) (fits : Fits (placed pushes 0))
    (small : (objectOf pushes).length ≤ u64Max) :
    parseFooter (objectOf pushes) (objectOf pushes).length = .ok (placed pushes 0) := by
  obtain ⟨builder, object, accepted, sealed_, regions, payload⟩ := exists_seal taken some_ fits
  have payload : object.payload = objectOf pushes := payload
  obtain ⟨-, -, parsed⟩ := whole_reads_back typed accepted sealed_ (payload ▸ small)
  rwa [payload, regions] at parsed

theorem overfull_taken : ∀ push ∈ overfullPushes ++ laterPushes, push.Taken ∧ push.Typed := by
  simp only [overfullPushes, laterPushes, List.cons_append, List.nil_append, List.forall_mem_cons,
    List.not_mem_nil, false_implies, implies_true, and_true]
  exact ⟨⟨⟨by decide, by decide, by decide, by decide⟩, rfl, by decide, by decide⟩,
    ⟨⟨by decide, by decide, by decide, by decide⟩, rfl, by decide, by decide⟩,
    ⟨by decide, by decide, by decide, by decide⟩, rfl, by decide, by decide⟩

theorem overfull_read : sourcesOf overfullGet overfullPlan ⟨⟨"x"⟩, 0, u32Max⟩ = .ok
    ((placed overfullPushes 0).map fun region => ⟨region, region.slice (objectOf overfullPushes)⟩) := by
  have both := fun push h => overfull_taken push (List.mem_append_left _ h)
  unfold sourcesOf overfullGet
  rw [if_pos rfl, bind_ok, parse_objectOf (fun push h => (both push h).1)
    (fun push h => (both push h).2) (by decide) (by decide) (by decide)]
  rfl

theorem later_read : sourcesOf overfullGet overfullPlan ⟨⟨"y"⟩, u32Max, 14⟩ = .ok
    ((placed laterPushes 0).map fun region => ⟨region, region.slice (objectOf laterPushes)⟩) := by
  have both := fun push h => overfull_taken push (List.mem_append_right _ h)
  unfold sourcesOf overfullGet
  rw [if_neg (by decide), bind_ok, parse_objectOf (fun push h => (both push h).1)
    (fun push h => (both push h).2) (by decide) (by decide) (by decide)]
  rfl

theorem overfull_miscounted : Miscounted overfullGet overfullPlan overfullInputs .defaultDomain := by
  have readX := overfull_read
  have readY := later_read
  obtain ⟨builder, object, accepted, sealed_, -, payload⟩ :=
    exists_seal (fun push h => (overfull_taken push h).1) (by decide) (by decide)
  refine ⟨overfullInputs, ⟨by decide, rfl, by decide, rfl, by decide, rfl⟩, by decide, ?_, ⟨overfullPushes ++ laterPushes, ?_,
    builder, object, accepted, sealed_, ?_⟩, ⟨⟨"x"⟩, 0, u32Max⟩, by decide, ?_⟩
  · simp only [overfullInputs, List.forall_mem_cons, List.not_mem_nil, false_implies, implies_true,
      and_true]
    exact ⟨⟨_, readX, by decide⟩, _, readY, by decide⟩
  · rw [overfullInputs, List.flatMap_cons, List.flatMap_cons, held_eq readX, held_eq readY]
    decide
  · rw [payload]
    decide
  · rw [held_eq readX]
    decide

/-- A planned range and two inputs that tile it: the merge is accepted although the first
object holds five records more than its reference says. -/
theorem merge_miscounts :
    (overfullLog.foldlM IndexState.apply {} >>= fun index =>
        Compact.plan index overfullTopic 0 0 (u32Max + 14)) = .ok (.planned overfullPlan) ∧
      recordsIn (held overfullGet overfullPlan ⟨⟨"x"⟩, 0, u32Max⟩) = u32Max + 5 ∧
      (∃ namer outcome, (merge ⟨overfullGet, fun _ => takingWriter⟩ overfullPlan overfullInputs
        namer).result = .ok outcome) ∧
      ¬∀ openMultipart namer,
        Rightly ⟨overfullGet, openMultipart⟩ overfullPlan overfullInputs .defaultDomain namer := by
  obtain ⟨namer, outcome, succeeded, -⟩ := succeeds_of_miscounted overfull_miscounted
  refine ⟨overfull_planned, ?_, ⟨namer, outcome, succeeded⟩,
    not_rightly_of_miscounted overfull_miscounted⟩
  rw [held_eq overfull_read]
  rfl

end Compact

end Oqueue
