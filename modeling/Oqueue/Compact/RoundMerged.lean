import Oqueue.Compact.Round

/-!
# What a round is merged into

Reading the plans of a round one after another pushes their regions as one run, so the
object's regions fall into one run a plan, and each holds what the plan's inputs held.
A plan's own inputs tile its range exactly when no object's references stand apart.
-/

namespace Oqueue

open Checked Footer Tiling

namespace Compact

variable {s : IndexState}

/-- No reference of another object lies between two of one object. -/
def Consecutive (refs : List ObjectRef) : Prop :=
  ∀ x ∈ refs, ∀ y ∈ refs, ∀ z ∈ refs, x.object = z.object → x.baseOffset ≤ y.baseOffset →
    y.baseOffset ≤ z.baseOffset → y.object = x.object

theorem filter_prefix {α : Type*} {p : α → Bool} {items : List α}
    (ahead : items.Pairwise fun x z => p z = true → p x = true) :
    items = items.filter p ++ items.filter fun x => !p x := by
  induction items with
  | nil => rfl
  | cons x rest ih =>
    obtain ⟨first, later⟩ := List.pairwise_cons.mp ahead
    cases mine : p x with
    | true => simpa [mine] using ih later
    | false =>
      have none : rest.filter p = [] := by
        refine List.filter_eq_nil_iff.mpr fun z hz taken => ?_
        exact absurd (first z hz taken) (by simp [mine])
      have all : rest.filter (fun x => !p x) = rest := by
        have both := ih later
        rw [none, List.nil_append] at both
        exact both.symm
      simp [mine, none, all]

/-- Joining later spans of an object onto one keeps its start and adds up its records. -/
theorem foldl_spanBoth {r : ObjectRef} {rest : List ObjectRef}
    (later : ∀ x ∈ rest, r.baseOffset ≤ x.baseOffset)
    (fits : r.recordCount + (rest.map ObjectRef.recordCount).sum ≤ u32Max) :
    rest.foldl spanBoth r =
      ⟨r.object, r.baseOffset, r.recordCount + (rest.map ObjectRef.recordCount).sum⟩ := by
  induction rest generalizing r with
  | nil => rfl
  | cons x rest ih =>
    rw [List.map_cons, List.sum_cons] at fits ⊢
    have base : min r.baseOffset x.baseOffset = r.baseOffset :=
      Nat.min_eq_left (later x (List.mem_cons_self ..))
    have count : min (r.recordCount + x.recordCount) u32Max = r.recordCount + x.recordCount :=
      Nat.min_eq_left (by omega)
    have joined : spanBoth r x = ⟨r.object, r.baseOffset, r.recordCount + x.recordCount⟩ := by
      unfold spanBoth
      rw [base, count]
    have rest := @ih ⟨r.object, r.baseOffset, r.recordCount + x.recordCount⟩
      (fun y hy => later y (List.mem_cons_of_mem _ hy)) (by
        dsimp only
        omega)
    rw [List.foldl_cons, joined, rest, Nat.add_assoc]

theorem base_foldl_le (r : ObjectRef) (rest : List ObjectRef) :
    ∀ x ∈ r :: rest, (rest.foldl spanBoth r).baseOffset ≤ x.baseOffset := by
  induction rest generalizing r with
  | nil => simp
  | cons first rest ih =>
    have here := ih (spanBoth r first)
    have joined := here _ (List.mem_cons_self ..)
    have both : (spanBoth r first).baseOffset = min r.baseOffset first.baseOffset := rfl
    rw [List.foldl_cons]
    intro x hx
    rcases List.mem_cons.mp hx with rfl | hx
    · omega
    · rcases List.mem_cons.mp hx with rfl | hx
      · omega
      · exact here x (List.mem_cons_of_mem _ hx)

theorem above_of_collect {refs : List ObjectRef} {low : Nat}
    (above : ∀ g ∈ Grouping.collect ObjectRef.object spanBoth refs, low ≤ g.baseOffset) :
    ∀ r ∈ refs, low ≤ r.baseOffset := by
  intro r hr
  have keyed := (Grouping.mem_keys_collect object_spanBoth refs r.object).mpr
    (List.mem_map_of_mem hr)
  obtain ⟨g, hg, same⟩ := List.mem_map.mp keyed
  have joined := (Grouping.mem_collect object_spanBoth refs g).mp hg
  rw [same] at joined
  have mine : r ∈ Grouping.under ObjectRef.object refs r.object := Grouping.mem_under.mpr ⟨hr, rfl⟩
  cases hunder : Grouping.under ObjectRef.object refs r.object with
  | nil =>
    rw [hunder] at mine
    cases mine
  | cons first rest =>
    rw [hunder] at joined mine
    cases joined
    exact (above _ hg).trans (base_foldl_le first rest r mine)

theorem sum_recordCount {refs : List ObjectRef} {low high : Nat} (tiles : RefTiles refs low high) :
    low + (refs.map ObjectRef.recordCount).sum = high := by
  rw [← tiles.sum_width]
  congr 2
  exact List.map_congr_left fun r _ => (Nat.add_sub_cancel_left ..).symm

theorem joined_head {r : ObjectRef} {rest : List ObjectRef} {low high : Nat}
    (tiles : RefTiles (r :: rest) low high) (small : high ≤ low + u32Max) :
    (Grouping.under ObjectRef.object rest r.object).foldl spanBoth r = ⟨r.object, low,
      r.recordCount + ((Grouping.under ObjectRef.object rest r.object).map
        ObjectRef.recordCount).sum⟩ := by
  have sum := sum_recordCount tiles
  rw [List.map_cons, List.sum_cons] at sum
  have part := ((List.filter_sublist (p := fun x => decide (x.object = r.object)) (l := rest)).map
    ObjectRef.recordCount).sum_le_sum fun _ _ => Nat.zero_le _
  have first : r.baseOffset = low := tiles.1
  rw [foldl_spanBoth, first]
  · intro x hx
    have := (tiles.bounds (List.mem_cons_of_mem _ (Grouping.mem_under.mp hx).1)).1
    omega
  · unfold Grouping.under
    omega

section

variable {r : ObjectRef} {rest : List ObjectRef} {low high : Nat}

/-- The later references of the object a tiling begins with. -/
abbrev mineOf (r : ObjectRef) (rest : List ObjectRef) : List ObjectRef :=
  Grouping.under ObjectRef.object rest r.object

abbrev othersOf (r : ObjectRef) (rest : List ObjectRef) : List ObjectRef :=
  rest.filter fun x => decide (x.object ≠ r.object)

theorem mem_othersOf {x : ObjectRef} :
    x ∈ othersOf r rest ↔ x ∈ rest ∧ x.object ≠ r.object := by
  simp [othersOf]

theorem mineOf_append (front later : List ObjectRef) :
    mineOf r (front ++ later) = mineOf r front ++ mineOf r later := List.filter_append ..

theorem othersOf_append (front later : List ObjectRef) :
    othersOf r (front ++ later) = othersOf r front ++ othersOf r later := List.filter_append ..

theorem mineOf_of_all (all : ∀ x ∈ rest, x.object = r.object) :
    mineOf r rest = rest ∧ othersOf r rest = [] := by
  refine ⟨List.filter_eq_self.mpr fun x hx => decide_eq_true (all x hx), ?_⟩
  exact List.eq_nil_iff_forall_not_mem.mpr fun x hx =>
    (mem_othersOf.mp hx).2 (all x (mem_othersOf.mp hx).1)

theorem othersOf_of_none (none : mineOf r rest = []) : othersOf r rest = rest := by
  refine List.filter_eq_self.mpr fun x hx => ?_
  rw [decide_eq_true_eq]
  intro same
  have mine : x ∈ mineOf r rest := Grouping.mem_under.mpr ⟨hx, same⟩
  rw [none] at mine
  exact List.not_mem_nil mine

theorem exists_run (object : ObjectKey) (refs : List ObjectRef) : ∃ front later,
    refs = front ++ later ∧ (∀ x ∈ front, x.object = object) ∧
      ∀ x ∈ later.head?, x.object ≠ object := by
  induction refs with
  | nil => exact ⟨[], [], by simp⟩
  | cons x rest ih =>
    by_cases mine : x.object = object
    · obtain ⟨front, later, rfl, all, stops⟩ := ih
      exact ⟨x :: front, later, rfl, List.forall_mem_cons.mpr ⟨mine, all⟩, stops⟩
    · exact ⟨[], x :: rest, rfl, by simp, by simpa using mine⟩

/-- If no other object's reference begins before the joined one ends, the object's own
references come first. -/
theorem mine_first (tiles : RefTiles (r :: rest) low high)
    (above : ∀ y ∈ othersOf r rest,
      low + (r.recordCount + ((mineOf r rest).map ObjectRef.recordCount).sum) ≤ y.baseOffset) :
    rest = mineOf r rest ++ othersOf r rest := by
  obtain ⟨front, later, rfl, all, stops⟩ := exists_run r.object rest
  obtain ⟨mine, none⟩ := mineOf_of_all all
  rw [mineOf_append, othersOf_append, mine, none, List.nil_append] at above ⊢
  cases later with
  | nil => exact (List.append_nil _).symm
  | cons x later =>
    obtain ⟨middle, first, second⟩ := Tiles.append_iff.mp
      (show RefTiles ((r :: front) ++ x :: later) low high from tiles)
    have sum := sum_recordCount first
    have begins : x.baseOffset = middle := second.1
    have bound := above x (mem_othersOf.mpr ⟨List.mem_cons_self .., stops x rfl⟩)
    -- What of the object is left past the first other one has no records, so it is nothing.
    have nothing : mineOf r (x :: later) = [] := by
      refine List.eq_nil_iff_forall_not_mem.mpr fun z hz => ?_
      have wide := (second.bounds (Grouping.mem_under.mp hz).1).2.1
      have counted := List.le_sum_of_mem (List.mem_map_of_mem (f := ObjectRef.recordCount) hz)
      rw [List.map_append, List.sum_append] at bound
      rw [List.map_cons, List.sum_cons] at sum
      change z.baseOffset < z.baseOffset + z.recordCount at wide
      omega
    rw [nothing, othersOf_of_none nothing, List.append_nil]

theorem split_of_consecutive (tiles : RefTiles (r :: rest) low high)
    (consecutive : Consecutive (r :: rest)) : rest = mineOf r rest ++ othersOf r rest := by
  have others : othersOf r rest = rest.filter fun x => !decide (x.object = r.object) :=
    List.filter_congr fun x _ => by simp
  obtain ⟨first, later⟩ := List.pairwise_cons.mp tiles.pairwise_lo
  rw [others]
  refine filter_prefix (List.Pairwise.imp_of_mem ?_ later)
  intro x z hx hz before mine
  exact decide_eq_true (consecutive r (List.mem_cons_self ..) x (List.mem_cons_of_mem _ hx) z
    (List.mem_cons_of_mem _ hz) (of_decide_eq_true mine).symm (first x hx).le before.le)

/-- Where the object's own references come first, they are consecutive if the rest are. -/
theorem consecutive_cons {middle : Nat} (first : RefTiles (r :: mineOf r rest) low middle)
    (second : RefTiles (othersOf r rest) middle high)
    (split : rest = mineOf r rest ++ othersOf r rest) (later : Consecutive (othersOf r rest)) :
    Consecutive (r :: rest) := by
  have place : ∀ x ∈ r :: rest, (x.object = r.object ∧ x.baseOffset < middle) ∨
      (x ∈ othersOf r rest ∧ x.object ≠ r.object ∧ middle ≤ x.baseOffset) := by
    intro x hx
    by_cases mine : x.object = r.object
    · refine .inl ⟨mine, ?_⟩
      have among : x ∈ r :: mineOf r rest := by
        rcases List.mem_cons.mp hx with rfl | hx
        · exact List.mem_cons_self ..
        · exact List.mem_cons_of_mem _ (Grouping.mem_under.mpr ⟨hx, mine⟩)
      have := first.bounds among
      omega
    · rcases List.mem_cons.mp hx with rfl | hx
      · exact absurd rfl mine
      · have among : x ∈ othersOf r rest := mem_othersOf.mpr ⟨hx, mine⟩
        exact .inr ⟨among, mine, (second.bounds among).1⟩
  intro x hx y hy z hz same xy yz
  rcases place x hx with ⟨mine, -⟩ | ⟨among, other, above⟩
  · rcases place z hz with ⟨-, below⟩ | ⟨-, other, -⟩
    · rcases place y hy with ⟨also, -⟩ | ⟨-, -, above⟩
      · exact also.trans mine.symm
      · omega
    · exact absurd (same.symm.trans mine) other
  · rcases place y hy with ⟨-, below⟩ | ⟨amongY, -⟩
    · omega
    · rcases place z hz with ⟨mine, -⟩ | ⟨amongZ, -⟩
      · exact absurd (same.trans mine) other
      · exact later x among y amongY z amongZ same xy yz

theorem tail_of_sorted {g : ObjectRef} {others : List ObjectRef} (begins : g.baseOffset = low)
    (tiles : RefTiles (sortByBase (g :: others)) low high) :
    g.baseOffset < g.stop ∧ RefTiles (sortByBase others) g.stop high := by
  have perm := sortByBase_perm (g :: others)
  cases sorted : sortByBase (g :: others) with
  | nil =>
    rw [sorted] at perm
    exact absurd perm.symm.eq_nil (List.cons_ne_nil _ _)
  | cons t rest =>
    rw [sorted] at tiles perm
    have same : t = g := by
      refine tiles.eq_of_lo (List.mem_cons_self ..) (perm.symm.subset (List.mem_cons_self ..)) ?_
      exact tiles.1.trans begins.symm
    subst same
    have rests : RefTiles rest t.stop high := tiles.2.2
    have again : sortByBase others = rest := rests.sort_eq ((List.perm_cons t).mp perm).symm
    exact ⟨tiles.1.trans_lt tiles.2.1, again ▸ rests⟩

end

/-- Spans joined by object tile a range exactly when no object's references stand apart. -/
theorem collect_tiles_iff {refs : List ObjectRef} {low high : Nat}
    (tiles : RefTiles refs low high) (small : high ≤ low + u32Max) :
    RefTiles (sortByBase (Grouping.collect ObjectRef.object spanBoth refs)) low high ↔
      Consecutive refs := by
  induction hlen : refs.length using Nat.strong_induction_on generalizing refs low with
  | _ n ih =>
    cases refs with
    | nil =>
      refine iff_of_true tiles ?_
      rintro x ⟨⟩
    | cons r rest =>
      have shorter : (othersOf r rest).length < n := by
        have : (othersOf r rest).length ≤ rest.length := List.length_filter_le ..
        rw [List.length_cons] at hlen
        omega
      have again : ∀ {middle}, RefTiles (othersOf r rest) middle high → low ≤ middle →
          (RefTiles (sortByBase (Grouping.collect ObjectRef.object spanBoth (othersOf r rest)))
            middle high ↔ Consecutive (othersOf r rest)) :=
        fun tiles later => ih _ shorter tiles (by omega) rfl
      rw [Grouping.collect_cons object_spanBoth, joined_head tiles small]
      constructor
      · intro sorted
        obtain ⟨wide, after⟩ := tail_of_sorted rfl sorted
        have split := mine_first tiles <| above_of_collect fun c hc =>
          (after.bounds ((sortByBase_perm _).symm.subset hc)).1
        obtain ⟨middle, first, second⟩ := Tiles.append_iff.mp
          (show RefTiles ((r :: mineOf r rest) ++ othersOf r rest) low high from by
            rw [List.cons_append, ← split]
            exact tiles)
        have sum := sum_recordCount first
        rw [List.map_cons, List.sum_cons] at sum
        refine consecutive_cons first second split ((again second (by omega)).mp ?_)
        rw [← sum]
        exact after
      · intro consecutive
        have split := split_of_consecutive tiles consecutive
        obtain ⟨middle, first, second⟩ := Tiles.append_iff.mp
          (show RefTiles ((r :: mineOf r rest) ++ othersOf r rest) low high from by
            rw [List.cons_append, ← split]
            exact tiles)
        have sum := sum_recordCount first
        rw [List.map_cons, List.sum_cons] at sum
        have later := (again second (by omega)).mpr fun x hx y hy z hz =>
          consecutive x (List.mem_cons_of_mem _ (mem_othersOf.mp hx).1)
            y (List.mem_cons_of_mem _ (mem_othersOf.mp hy).1)
            z (List.mem_cons_of_mem _ (mem_othersOf.mp hz).1)
        have begins : r.baseOffset = low := first.1
        have wide : low < r.baseOffset + r.recordCount := first.2.1
        have whole : RefTiles (⟨r.object, low, r.recordCount + ((mineOf r rest).map
            ObjectRef.recordCount).sum⟩ :: sortByBase (Grouping.collect ObjectRef.object spanBoth
              (othersOf r rest))) low high := by
          refine ⟨rfl, ?_, ?_⟩
          · change low < low + (r.recordCount + List.sum _)
            omega
          · change RefTiles _ (low + _) high
            rw [sum]
            exact later
        have sorted := whole.sort_eq ((sortByBase_perm _).symm.cons _)
        rw [sortByBase, sorted]
        exact whole

/-- The inputs of a plan that its range touches, in offset order. -/
def tilingOf (work : PlannedInputs) : List ObjectRef :=
  sortByBase (work.inputs.filter (inRange work.plan))

theorem tilingOf_eq {work : PlannedInputs} {refs : List ObjectRef}
    (tiles : TilesRange work.plan work.inputs refs) : refs = tilingOf work :=
  (tiles.2.sort_eq tiles.1.symm).symm

/-- The regions of a plan's inputs, in offset order. -/
def sourcesOfWork (get : ObjectKey → Except Error WholeObject) (work : PlannedInputs) :
    List Source := (tilingOf work).flatMap (held get work.plan)

def copied (plan : CompactionPlan) (source : Source) : Push :=
  .plain plan.topic plan.partition ⟨source.region.recordCount, none⟩ source.bytes

theorem pushesOf_default {plan : CompactionPlan} {index : Nat} {sources : List Source}
    {pushes : List Push} : pushesOf plan .defaultDomain index sources = .ok pushes ↔
      (∀ source ∈ sources, source.region.alg = .none) ∧ pushes = sources.map (copied plan) := by
  induction sources generalizing index pushes with
  | nil =>
    rw [pushesOf, Except.ok.injEq, eq_comm]
    simp
  | cons source rest ih =>
    have one : ∀ push, pushOf plan .defaultDomain index source = .ok push ↔
        source.region.alg = .none ∧ push = copied plan source := by
      intro push
      unfold pushOf
      rw [bind_eq_ok]
      constructor
      · rintro ⟨⟨⟩, valid, made⟩
        exact ⟨KeyDomain.validateRegion_eq_ok.mp valid, (Except.ok.inj made).symm⟩
      · rintro ⟨plain, rfl⟩
        exact ⟨(), KeyDomain.validateRegion_eq_ok.mpr plain, rfl⟩
    simp only [pushesOf_eq_ok_cons, one, ih, List.forall_mem_cons, List.map_cons]
    constructor
    · rintro ⟨_, ⟨plain, rfl⟩, _, ⟨later, rfl⟩, rfl⟩
      exact ⟨⟨plain, later⟩, rfl⟩
    · rintro ⟨⟨plain, later⟩, rfl⟩
      exact ⟨_, ⟨plain, rfl⟩, _, ⟨later, rfl⟩, rfl⟩

/-- What a plan's inputs are where they can be gathered: they tile its range, each is
counted, and nothing of theirs is sealed. -/
structure Gathered (get : ObjectKey → Except Error WholeObject) (work : PlannedInputs) :
    Prop where
  fits : ∀ r ∈ work.inputs, r.stop ≤ i64Max
  tiles : TilesRange work.plan work.inputs (tilingOf work)
  counted : ∀ r ∈ tilingOf work, Counted get work.plan r
  plain : ∀ source ∈ sourcesOfWork get work, source.region.alg = .none

variable {store : MergeStore} {writer : MultipartWriter}

theorem gatherPlanned_eq_ok {self next : RoundGathering} {work : PlannedInputs} :
    gatherPlanned store writer self work = .ok next ↔ Gathered store.get work ∧
      ∃ stream, ((sourcesOfWork store.get work).map (copied work.plan)).foldlM
          (BundleStream.call writer) self.stream = .ok stream ∧
        next = ⟨stream, self.gets + (tilingOf work).length,
          self.records + ((tilingOf work).map ObjectRef.recordCount).sum⟩ := by
  constructor
  · intro h
    obtain ⟨gathered, gathers, same⟩ := bind_eq_ok.mp h
    obtain rfl := Except.ok.inj same
    obtain ⟨refs, tiled, gathers⟩ := bind_eq_ok.mp gathers
    obtain ⟨fits, tiles⟩ := tiling_eq_ok.mp tiled
    obtain rfl := tilingOf_eq tiles
    obtain ⟨counted, pushes, pushed, stream, called, rfl⟩ :=
      (gathers_eq_ok (Nat.zero_le _)).mp gathers
    obtain ⟨plain, rfl⟩ := pushesOf_default.mp pushed
    refine ⟨⟨fits, tiles, counted, plain⟩, stream, called, ?_⟩
    dsimp only
    rw [Nat.zero_add, Nat.zero_add]
  · rintro ⟨⟨fits, tiles, counted, plain⟩, stream, called, rfl⟩
    have gathers := (@gathers_eq_ok store writer work.plan .defaultDomain _
      { stream := self.stream } _ (Nat.zero_le _)).mpr
      ⟨counted, _, pushesOf_default.mpr ⟨plain, rfl⟩, stream, called, rfl⟩
    unfold gatherPlanned gather
    rw [tiling_eq_ok.mpr ⟨fits, tiles⟩, bind_ok, gathers, bind_ok]
    dsimp only
    rw [Nat.zero_add, Nat.zero_add]
    rfl

def pushesOfWorks (get : ObjectKey → Except Error WholeObject) (works : List PlannedInputs) :
    List Push := works.flatMap fun work => (sourcesOfWork get work).map (copied work.plan)

/-- Plans are gathered exactly when each can be, and all their regions are pushed. -/
theorem gathersRound {works : List PlannedInputs} {self next : RoundGathering} :
    works.foldlM (gatherPlanned store writer) self = .ok next ↔
      (∀ work ∈ works, Gathered store.get work) ∧
        ∃ stream, (pushesOfWorks store.get works).foldlM (BundleStream.call writer) self.stream =
            .ok stream ∧
          next = ⟨stream, self.gets + (works.map fun work => (tilingOf work).length).sum,
            self.records +
              (works.map fun work => ((tilingOf work).map ObjectRef.recordCount).sum).sum⟩ := by
  induction works generalizing self next with
  | nil =>
    constructor
    · intro h
      obtain rfl := Except.ok.inj h
      exact ⟨by simp, self.stream, rfl, rfl⟩
    · rintro ⟨-, stream, none, rfl⟩
      cases none
      rfl
  | cons work rest ih =>
    rw [List.foldlM_cons, bind_eq_ok, List.forall_mem_cons]
    simp only [gatherPlanned_eq_ok, ih]
    constructor
    · rintro ⟨_, ⟨first, mid, called, rfl⟩, later, stream, calls, rfl⟩
      refine ⟨⟨first, later⟩, stream, ?_, ?_⟩
      · rw [pushesOfWorks, List.flatMap_cons, List.foldlM_append, called, bind_ok]
        exact calls
      · simp [Nat.add_assoc]
    · rintro ⟨⟨first, later⟩, stream, calls, rfl⟩
      rw [pushesOfWorks, List.flatMap_cons, List.foldlM_append, bind_eq_ok] at calls
      obtain ⟨mid, called, calls⟩ := calls
      refine ⟨_, ⟨first, mid, called, rfl⟩, later, stream, calls, ?_⟩
      simp [Nat.add_assoc]

/-- What is gathered of a tiling lies in its range. -/
theorem bounds_of_collect {refs : List ObjectRef} {low high : Nat} (tiles : RefTiles refs low high)
    (small : high ≤ low + u32Max) {g : ObjectRef}
    (hg : g ∈ Grouping.collect ObjectRef.object spanBoth refs) :
    low ≤ g.baseOffset ∧ g.baseOffset < high ∧ g.baseOffset < g.stop := by
  have joined := (Grouping.mem_collect object_spanBoth refs g).mp hg
  cases hunder : Grouping.under ObjectRef.object refs g.object with
  | nil =>
    rw [hunder] at joined
    cases joined
  | cons first rest =>
    rw [hunder] at joined
    have sub : (first :: rest).Sublist refs := hunder ▸ List.filter_sublist
    obtain ⟨later, -⟩ := List.pairwise_cons.mp (tiles.pairwise_lo.sublist sub)
    have sum := sum_recordCount tiles
    have part := (sub.map ObjectRef.recordCount).sum_le_sum fun _ _ => Nat.zero_le _
    rw [List.map_cons, List.sum_cons] at part
    obtain ⟨lower, wide, upper⟩ := tiles.bounds (sub.subset (List.mem_cons_self ..))
    obtain rfl := Option.some.inj joined
    rw [foldl_spanBoth (fun x hx => (later x hx).le) (by omega)]
    change first.baseOffset < first.baseOffset + first.recordCount at wide
    change _ ≤ first.baseOffset ∧ first.baseOffset < _ ∧
      first.baseOffset < first.baseOffset + (first.recordCount + List.sum _)
    have : first.baseOffset < high := by
      have : first.stop = first.baseOffset + first.recordCount := rfl
      omega
    exact ⟨lower, this, by omega⟩

/-- The references of a plan's range, as the index a sweep went over holds them. -/
structure OfRange (s : IndexState) (work : PlannedInputs) (p : PartitionIndex) : Prop where
  held : s.partition work.plan.key = some p
  range : PlannedRange p work.plan
  inputs : work.inputs = Grouping.collect ObjectRef.object spanBoth
    (within p work.plan.start work.plan.stop)

theorem Swept.ofRange (wf : ∀ key p, s.partition key = some p → p.WF) {work : PlannedInputs}
    (swept : Swept s work) : ∃ p, OfRange s work p := by
  obtain ⟨⟨topic, partition, start, stop, hplan⟩, derived⟩ := swept
  obtain ⟨-, p, held, range⟩ := planned_range wf hplan
  refine ⟨p, held, range, ?_⟩
  exact congrArg PlannedInputs.inputs
    (Except.ok.inj (derived.symm.trans (derive_eq held (wf _ p held) range)))

section

variable {work : PlannedInputs} {p : PartitionIndex}

theorem u32Max_of_narrow
    (narrow : work.plan.stop ≤ work.plan.start + compactionPlanRecordsBudget) :
    work.plan.stop ≤ work.plan.start + u32Max := by
  have : compactionPlanRecordsBudget ≤ u32Max := by decide
  omega

theorem OfRange.tilingOf_eq (h : OfRange s work p)
    (narrow : work.plan.stop ≤ work.plan.start + compactionPlanRecordsBudget) :
    tilingOf work = sortByBase work.inputs ∧
      work.inputs.filter (inRange work.plan) = work.inputs := by
  have all : work.inputs.filter (inRange work.plan) = work.inputs := by
    refine List.filter_eq_self.mpr fun g hg => ?_
    rw [h.inputs] at hg
    obtain ⟨lower, upper, wide⟩ :=
      bounds_of_collect h.range.tiles (u32Max_of_narrow narrow) hg
    simp only [inRange, Bool.and_eq_true, decide_eq_true_eq]
    exact ⟨by omega, upper⟩
  exact ⟨congrArg sortByBase all, all⟩

theorem OfRange.mem_tilingOf (h : OfRange s work p)
    (narrow : work.plan.stop ≤ work.plan.start + compactionPlanRecordsBudget) {r : ObjectRef} :
    r ∈ tilingOf work ↔ r ∈ work.inputs := by
  rw [(h.tilingOf_eq narrow).1, (sortByBase_perm _).mem_iff]

theorem OfRange.tiles_iff (h : OfRange s work p)
    (narrow : work.plan.stop ≤ work.plan.start + compactionPlanRecordsBudget) :
    TilesRange work.plan work.inputs (tilingOf work) ↔
      Consecutive (within p work.plan.start work.plan.stop) := by
  obtain ⟨sorted, all⟩ := h.tilingOf_eq narrow
  rw [← collect_tiles_iff h.range.tiles (u32Max_of_narrow narrow), ← h.inputs]
  unfold TilesRange
  rw [sorted, all, and_iff_right (sortByBase_perm _)]

end

def heldBy (object : List UInt8) (region : Region) : PartitionKey × Nat × List UInt8 :=
  (region.key, region.recordCount, region.slice object)

def pushedBy (push : Push) : PartitionKey × Nat × List UInt8 :=
  ((push.topic, push.partition), push.pushed.count, push.bytes)

theorem placed_heads (pushes : List Push) (offset : Nat) :
    (placed pushes offset).map (fun region => (region.key, region.recordCount)) =
      pushes.map fun push => ((push.topic, push.partition), push.pushed.count) := by
  induction pushes generalizing offset with
  | nil => rfl
  | cons push rest ih =>
    rw [placed, List.map_cons, List.map_cons, ih]
    rfl

theorem runs_of_map {α β γ : Type*} {f : α → γ} {g : β → List γ} {items : List α}
    {groups : List β} (h : items.map f = groups.flatMap g) :
    ∃ runs, items = runs.flatten ∧
      List.Forall₂ (fun group run => run.map f = g group) groups runs := by
  induction groups generalizing items with
  | nil =>
    obtain rfl : items = [] := List.map_eq_nil_iff.mp h
    exact ⟨[], rfl, .nil⟩
  | cons group rest ih =>
    obtain ⟨mine, others, rfl, here, later⟩ := List.map_eq_append_iff.mp h
    obtain ⟨runs, rfl, each⟩ := ih later
    exact ⟨mine :: runs, rfl, .cons here each⟩

theorem heldBy_completed {pushes : List Push} {stream : BundleStream} {bytes : List UInt8}
    (typed : ∀ push ∈ pushes, push.Typed) (first : CipheredFirst pushes)
    (called : pushes.foldlM (BundleStream.call writer) {} = .ok stream)
    (done : completed writer stream = some bytes) (small : bytes.length ≤ u64Max) :
    ∃ regions, parseFooter bytes bytes.length = .ok regions ∧
      regions.map (heldBy bytes) = pushes.map pushedBy := by
  obtain ⟨builder, object, accepted, sealed_, rfl⟩ := written_of_completed first called done small
  obtain ⟨regions, cuts, parsed⟩ := whole_reads_back typed accepted sealed_ small
  refine ⟨object.regions, parsed, ?_⟩
  have heads := placed_heads pushes 0
  rw [← regions] at heads
  have zipped := congrArg₂ (List.zipWith fun head bytes => (head.1, head.2, bytes)) heads cuts
  rw [List.zipWith_map, List.zipWith_map, List.zipWith_self, List.zipWith_self] at zipped
  exact zipped

/-- What a plan's run of an object's regions is: the regions of its inputs, in offset
order, under the counts and with the bytes they were read with. -/
structure Rewritten (get : ObjectKey → Except Error WholeObject) (object : List UInt8)
    (output : ObjectKey) (work : PlannedInputs) (run : List Region) : Prop where
  tiles : TilesRange work.plan work.inputs (tilingOf work)
  agrees : ∀ r ∈ tilingOf work, Agrees get work.plan r
  carries : run.map (heldBy object) = (sourcesOfWork get work).map fun source =>
    (work.plan.key, source.region.recordCount, source.bytes)
  offsets : numbered work.plan.start (run.map Region.recordCount) =
    (tilingOf work).flatMap fun r => numbered r.baseOffset (countsOf (held get work.plan r))
  installs : covers (tilingOf work) [work.plan.output output] = .ok ()

theorem Gathered.agrees {get : ObjectKey → Except Error WholeObject} {work : PlannedInputs}
    (gathered : Gathered get work)
    (narrow : work.plan.stop ≤ work.plan.start + compactionPlanRecordsBudget) :
    ∀ r ∈ tilingOf work, Agrees get work.plan r := by
  intro r hr
  obtain ⟨sources, read, counts⟩ := gathered.counted r hr
  obtain ⟨lower, -, upper⟩ := gathered.tiles.2.bounds hr
  have small : r.recordCount < u32Max := by
    change r.baseOffset + r.recordCount ≤ _ at upper
    unfold compactionPlanRecordsBudget at narrow
    unfold u32Max
    omega
  exact ⟨sources, read, by omega⟩

theorem Gathered.rewritten {get : ObjectKey → Except Error WholeObject} {work : PlannedInputs}
    (gathered : Gathered get work) (range : work.plan.start < work.plan.stop)
    (below : work.plan.stop ≤ i64Max)
    (narrow : work.plan.stop ≤ work.plan.start + compactionPlanRecordsBudget)
    {object : List UInt8} (output : ObjectKey) {run : List Region}
    (carries : run.map (heldBy object) = (sourcesOfWork get work).map fun source =>
      (work.plan.key, source.region.recordCount, source.bytes)) :
    Rewritten get object output work run := by
  have agrees := gathered.agrees narrow
  have counts : run.map Region.recordCount = countsOf (sourcesOfWork get work) := by
    have both := congrArg (List.map fun told => told.2.1) carries
    rw [List.map_map, List.map_map] at both
    exact both
  refine ⟨gathered.tiles, agrees, carries, ?_, ?_⟩
  · rw [counts]
    exact numbered_tiles gathered.tiles.2 agrees
  · have sorted : sortByBase (tilingOf work) = tilingOf work :=
      gathered.tiles.2.sort_eq (List.Perm.refl _)
    have ends : (work.plan.output output).stop = work.plan.stop := Nat.add_sub_of_le range.le
    exact covers_of_tiles (sorted.symm ▸ gathered.tiles.2) ⟨rfl, ends ▸ range, ends⟩ range below

/-- The object a round is merged into: nothing but one run of regions for each plan, by
topic and partition, and each run what the plan's inputs hold. -/
def RoundLossless (get : ObjectKey → Except Error WholeObject) (round : List PlannedInputs)
    (output : ObjectKey) (object : List UInt8) : Prop :=
  ∃ regions, parseFooter object object.length = .ok regions ∧
    (regions.Pairwise fun a b =>
      a.topic.name < b.topic.name ∨ a.topic = b.topic ∧ a.partition ≤ b.partition) ∧
    (∀ region ∈ regions, ∃ work ∈ round, region.key = work.plan.key) ∧
    ∀ work ∈ round, ∃ before run after, regions = before ++ run ++ after ∧
      (∀ region ∈ before ++ after, region.key ≠ work.plan.key) ∧
      Rewritten get object output work run

/-- What a round went through that had its writer complete an object. -/
structure RoundWent (store : MergeStore) (round : List PlannedInputs) (output : ObjectKey)
    (bytes : List UInt8) : Prop where
  gathered : ∀ work ∈ round, Gathered store.get work
  wrote : ∃ stream, (pushesOfWorks store.get (sortRound round)).foldlM
      (BundleStream.call (store.openMultipart output)) {} = .ok stream ∧
    completed (store.openMultipart output) stream = some bytes

theorem gathering_ok {round : List PlannedInputs} {gathered : RoundGathering}
    (h : (do
        let stream ← BundleStream.start writer
        (sortRound round).foldlM (gatherPlanned store writer) { stream := stream }) =
      .ok gathered) : (∀ work ∈ round, Gathered store.get work) ∧
      (pushesOfWorks store.get (sortRound round)).foldlM (BundleStream.call writer) {} =
        .ok gathered.stream ∧
      gathered.records =
        (round.map fun work => ((tilingOf work).map ObjectRef.recordCount).sum).sum := by
  obtain ⟨stream, started, gathers⟩ := bind_eq_ok.mp h
  obtain ⟨⟨⟩, -, started⟩ := bind_eq_ok.mp started
  obtain rfl := Except.ok.inj started
  obtain ⟨each, stream, called, rfl⟩ := gathersRound.mp gathers
  have perm := sortRound_perm round
  refine ⟨fun work h => each work (perm.symm.subset h), called, ?_⟩
  rw [← (perm.map _).sum_eq]
  exact Nat.zero_add _

/-- A round that completes an object gathered every plan of it, under the key it minted. -/
theorem roundWent_of_object {round : List PlannedInputs} {namer : CompactionNamer}
    {output : ObjectKey} {bytes : List UInt8}
    (h : (mergeRound store round namer).object = some (output, bytes)) :
    RoundWent store round output bytes ∧
      namer.nextKey = (.ok output, (mergeRound store round namer).namer) := by
  unfold mergeRound at h ⊢
  split at h
  · cases h
  rename_i some_
  rw [if_neg some_]
  split at h
  · cases h
  split at h
  · cases h
  rename_i key after named
  rw [named]
  dsimp only at h ⊢
  split at h
  · cases h
  rename_i gathered gathering
  obtain ⟨each, called, -⟩ := gathering_ok gathering
  obtain ⟨_, done, same⟩ := Option.map_eq_some_iff.mp h
  cases same
  exact ⟨⟨each, gathered.stream, called, done⟩, rfl⟩

/-- A round that succeeds completed the object it names. -/
theorem roundWent_of_ok {round : List PlannedInputs} {namer : CompactionNamer}
    {outcome : MergeOutcome} (some_ : round ≠ [])
    (h : (mergeRound store round namer).result = .ok outcome) : ∃ output bytes,
      (mergeRound store round namer).object = some (output, bytes) ∧
      outcome.object = some output ∧ outcome.puts = 1 ∧
      outcome.records =
        (round.map fun work => ((tilingOf work).map ObjectRef.recordCount).sum).sum := by
  unfold mergeRound at h ⊢
  rw [if_neg (by simpa using some_)] at h ⊢
  split at h
  · cases h
  split at h
  · cases h
  rename_i output _ _
  dsimp only at h ⊢
  split at h
  · cases h
  rename_i gathered gathering
  obtain ⟨each, called, records⟩ := gathering_ok gathering
  obtain ⟨⟨spans, cost, bytes⟩, finished, h⟩ := bind_eq_ok.mp h
  cases h
  refine ⟨output, bytes, ?_, rfl, rfl, records⟩
  rw [completed_of_finish finished]
  rfl

theorem typed_of_round {get : ObjectKey → Except Error WholeObject} {round : List PlannedInputs} :
    ∀ push ∈ pushesOfWorks get (sortRound round), push.Typed := by
  intro push member
  obtain ⟨work, -, member⟩ := List.mem_flatMap.mp member
  obtain ⟨source, hsource, rfl⟩ := List.mem_map.mp member
  obtain ⟨typed, mine⟩ := source_typed hsource
  obtain ⟨topic, partition⟩ := Prod.mk.inj mine
  refine ⟨?_, ?_, typed.recordCount⟩
  · change work.plan.topic.Typed
    exact topic ▸ typed.topic
  · change work.plan.partition < 2 ^ 31
    exact partition ▸ typed.partition

theorem cipheredFirst_of_round {get : ObjectKey → Except Error WholeObject}
    {round : List PlannedInputs} : CipheredFirst (pushesOfWorks get (sortRound round)) := by
  have plain : ∀ push ∈ pushesOfWorks get (sortRound round), push.envelope = none := by
    intro push member
    obtain ⟨work, -, member⟩ := List.mem_flatMap.mp member
    obtain ⟨source, -, rfl⟩ := List.mem_map.mp member
    rfl
  refine List.Pairwise.imp_of_mem ?_ (List.pairwise_of_forall fun _ _ => trivial)
  intro earlier later _ member _ ciphered
  exact absurd (plain later member) ciphered

/-- What a plan of a round is, for its part of the output to be told from the others'. -/
structure Roundable (round : List PlannedInputs) : Prop where
  once : (round.map fun work => work.plan.key).Nodup
  range : ∀ work ∈ round, work.plan.start < work.plan.stop
  below : ∀ work ∈ round, work.plan.stop ≤ i64Max
  narrow : ∀ work ∈ round, work.plan.stop ≤ work.plan.start + compactionPlanRecordsBudget

theorem run_of_forall₂ {α β : Type*} {R : α → β → Prop} {groups : List α} {runs : List β}
    (each : List.Forall₂ R groups runs) {group : α} (member : group ∈ groups) :
    ∃ front run back front' back', groups = front ++ group :: back ∧
      runs = front' ++ run :: back' ∧ R group run ∧ List.Forall₂ R front front' ∧
      List.Forall₂ R back back' := by
  induction each with
  | nil => cases member
  | @cons first run groups runs here later ih =>
    rcases List.mem_cons.mp member with rfl | member
    · exact ⟨[], run, groups, [], runs, rfl, rfl, here, .nil, later⟩
    · obtain ⟨front, mine, back, front', back', rfl, rfl, held, before, after⟩ := ih member
      exact ⟨first :: front, mine, back, run :: front', back', rfl, rfl, held,
        .cons here before, after⟩

/-- A run holds regions of its plan's partition. -/
def OfPlan (work : PlannedInputs) (run : List Region) : Prop :=
  ∀ region ∈ run, region.key = work.plan.key

theorem mem_runs {works : List PlannedInputs} {runs : List (List Region)}
    (each : List.Forall₂ OfPlan works runs) :
    ∀ region ∈ runs.flatten, ∃ work ∈ works, region.key = work.plan.key := by
  induction each with
  | nil => simp
  | cons here _ ih =>
    intro region member
    rcases List.mem_append.mp (List.flatten_cons ▸ member) with member | member
    · exact ⟨_, List.mem_cons_self .., here region member⟩
    · obtain ⟨work, hwork, same⟩ := ih region member
      exact ⟨work, List.mem_cons_of_mem _ hwork, same⟩

/-- Runs laid in the order of their plans are in the order of their partitions. -/
theorem runs_sorted {works : List PlannedInputs} {runs : List (List Region)}
    (sorted : works.Pairwise fun left right => roundKey left ≤ roundKey right)
    (each : List.Forall₂ OfPlan works runs) :
    runs.flatten.Pairwise fun a b =>
      a.topic.name < b.topic.name ∨ a.topic = b.topic ∧ a.partition ≤ b.partition := by
  induction each with
  | nil => exact List.Pairwise.nil
  | @cons work run works runs here later ih =>
    obtain ⟨first, sorted⟩ := List.pairwise_cons.mp sorted
    rw [List.flatten_cons]
    refine List.pairwise_append.mpr ⟨?_, ih sorted, fun a ha b hb => ?_⟩
    · refine List.Pairwise.imp_of_mem ?_ (List.pairwise_of_forall fun _ _ => trivial)
      intro a b ha hb _
      obtain ⟨topic, partition⟩ := Prod.mk.inj ((here a ha).trans (here b hb).symm)
      exact .inr ⟨topic, partition.le⟩
    · obtain ⟨other, hother, same⟩ := mem_runs later b hb
      obtain ⟨topicA, partitionA⟩ := Prod.mk.inj (here a ha)
      obtain ⟨topicB, partitionB⟩ := Prod.mk.inj same
      rw [topicA, topicB, partitionA, partitionB]
      refine (roundKey_le.mp (first other hother)).imp_right (And.imp_right fun place => ?_)
      rcases place with less | ⟨equal, -⟩
      · exact less.le
      · exact equal.le

theorem roundLossless_of_went {get : ObjectKey → Except Error WholeObject}
    {openMultipart : ObjectKey → MultipartWriter} {round : List PlannedInputs}
    (roundable : Roundable round) {output : ObjectKey} {bytes : List UInt8}
    (went : RoundWent ⟨get, openMultipart⟩ round output bytes) (small : bytes.length ≤ u64Max) :
    RoundLossless get round output bytes := by
  have perm := sortRound_perm round
  obtain ⟨stream, called, done⟩ := went.wrote
  obtain ⟨regions, parsed, carries⟩ :=
    heldBy_completed typed_of_round cipheredFirst_of_round called done small
  have told : regions.map (heldBy bytes) = (sortRound round).flatMap fun work =>
      (sourcesOfWork get work).map fun source =>
        (work.plan.key, source.region.recordCount, source.bytes) := by
    rw [carries, pushesOfWorks, List.map_flatMap]
    refine List.flatMap_congr fun work _ => ?_
    rw [List.map_map]
    rfl
  obtain ⟨runs, rfl, each⟩ := runs_of_map told
  have ofPlan : ∀ work run, run.map (heldBy bytes) = ((sourcesOfWork get work).map fun source =>
      (work.plan.key, source.region.recordCount, source.bytes)) → OfPlan work run := by
    intro work run same region member
    have among : heldBy bytes region ∈ run.map (heldBy bytes) := List.mem_map_of_mem member
    rw [same] at among
    obtain ⟨source, -, equal⟩ := List.mem_map.mp among
    exact (congrArg Prod.fst equal).symm
  have mine := each.imp ofPlan
  refine ⟨runs.flatten, parsed, runs_sorted (sortRound_sorted round) mine, ?_, ?_⟩
  · intro region member
    obtain ⟨work, hwork, same⟩ := mem_runs mine region member
    exact ⟨work, perm.subset hwork, same⟩
  · intro work hwork
    obtain ⟨front, run, back, front', back', sorted, rfl, here, before, after⟩ :=
      run_of_forall₂ each (perm.symm.subset hwork)
    refine ⟨front'.flatten, run, back'.flatten, by simp, fun region member same => ?_, ?_⟩
    · have once := (perm.map fun work => work.plan.key).nodup_iff.mpr roundable.once
      rw [sorted, List.map_append, List.map_cons] at once
      obtain ⟨alone, -⟩ := List.nodup_cons.mp (List.perm_middle.nodup_iff.mp once)
      refine alone ?_
      rw [← List.map_append, ← same]
      rcases List.mem_append.mp member with member | member
      · obtain ⟨other, hother, equal⟩ := mem_runs (before.imp ofPlan) region member
        exact equal ▸ List.mem_map_of_mem (List.mem_append_left _ hother)
      · obtain ⟨other, hother, equal⟩ := mem_runs (after.imp ofPlan) region member
        exact equal ▸ List.mem_map_of_mem (List.mem_append_right _ hother)
    · exact (went.gathered work hwork).rewritten (roundable.range work hwork)
        (roundable.below work hwork) (roundable.narrow work hwork) output here

theorem records_of_gathered {get : ObjectKey → Except Error WholeObject}
    {round : List PlannedInputs} (gathered : ∀ work ∈ round, Gathered get work) :
    (round.map fun work => ((tilingOf work).map ObjectRef.recordCount).sum) =
      round.map fun work => work.plan.stop - work.plan.start := by
  refine List.map_congr_left fun work hwork => ?_
  have := sum_recordCount (gathered work hwork).tiles.2
  omega

/-- Plans that can all be gathered are merged, where the writer takes what it is handed. -/
theorem mergeRound_succeeds {get : ObjectKey → Except Error WholeObject}
    {openMultipart : ObjectKey → MultipartWriter} {round : List PlannedInputs}
    {namer : CompactionNamer} {output : ObjectKey}
    (accepting : ∀ key, (openMultipart key).Accepting) (named : namer.nextKey.1 = .ok output)
    (some_ : round ≠ []) (admitted : admissible (sortRound round) none 0 = .ok ())
    (gathered : ∀ work ∈ round, Gathered get work)
    (sealable : Sealable (pushesOfWorks get (sortRound round))) :
    ∃ outcome, (mergeRound ⟨get, openMultipart⟩ round namer).result = .ok outcome := by
  obtain ⟨builder, object, accepted, sealed_, small⟩ := sealable
  obtain ⟨cost, wrote⟩ := agrees_of_cipheredFirst (accepting output) accepted sealed_ small
    cipheredFirst_of_round
  obtain ⟨_, started, wrote⟩ := bind_eq_ok.mp wrote
  obtain ⟨stream, called, finished⟩ := bind_eq_ok.mp wrote
  obtain ⟨⟨⟩, opened, started'⟩ := bind_eq_ok.mp started
  obtain rfl := Except.ok.inj started'
  have gathers := (@gathersRound ⟨get, openMultipart⟩ (openMultipart output) (sortRound round)
    { stream := {} } _).mpr
    ⟨fun work h => gathered work ((sortRound_perm round).subset h), stream, called, rfl⟩
  obtain ⟨answer, after⟩ : ∃ after, namer.nextKey = (.ok output, after) :=
    ⟨namer.nextKey.2, Prod.ext named rfl⟩
  unfold mergeRound
  rw [if_neg (by simpa using some_), admitted, after]
  dsimp only
  rw [started, bind_ok, gathers]
  dsimp only
  rw [finished]
  exact ⟨_, rfl⟩

/-- No object has references in a plan's range with another's between them. -/
def Joinable (s : IndexState) (work : PlannedInputs) : Prop :=
  ∀ p, s.partition work.plan.key = some p →
    Consecutive (within p work.plan.start work.plan.stop)

/-- Merging a round as it should be: an empty one writes nothing; whatever object its
writer completes is lossless, also where the round then fails; a success names that object
and counts its records; a plan whose inputs stand apart or do not hold what the index says
has the round refused; and nothing else about the inputs does. -/
structure RoundRightly (s : IndexState) (get : ObjectKey → Except Error WholeObject)
    (round : List PlannedInputs) : Prop where
  empty : round = [] → ∀ openMultipart namer,
    mergeRound ⟨get, openMultipart⟩ round namer = ⟨.ok .empty, none, namer⟩
  lossless : ∀ openMultipart namer output object,
    (mergeRound ⟨get, openMultipart⟩ round namer).object = some (output, object) →
    namer.nextKey = (.ok output, (mergeRound ⟨get, openMultipart⟩ round namer).namer) ∧
      -- an object's size is a `u64`
      (object.length ≤ u64Max → RoundLossless get round output object)
  tells : round ≠ [] → ∀ openMultipart namer outcome,
    (mergeRound ⟨get, openMultipart⟩ round namer).result = .ok outcome → ∃ output object,
      (mergeRound ⟨get, openMultipart⟩ round namer).object = some (output, object) ∧
      outcome.object = some output ∧
      outcome.records = (round.map fun work => work.plan.stop - work.plan.start).sum
  refuses : (∃ work ∈ round, ¬Joinable s work ∨ ∃ r ∈ work.inputs, ¬Agrees get work.plan r) →
    ∀ openMultipart namer, (∃ refusal,
      (mergeRound ⟨get, openMultipart⟩ round namer).result = .error refusal) ∧
      (mergeRound ⟨get, openMultipart⟩ round namer).object = none
  succeeds : (∀ work ∈ round, Joinable s work ∧ ∀ r ∈ work.inputs, Agrees get work.plan r ∧
      ∀ source ∈ held get work.plan r, source.region.alg = .none) →
    Sealable (pushesOfWorks get (sortRound round)) → ∀ openMultipart namer output,
      (∀ key, (openMultipart key).Accepting) → namer.nextKey.1 = .ok output →
      ∃ outcome, (mergeRound ⟨get, openMultipart⟩ round namer).result = .ok outcome

/-- What a sweep planned can be gathered exactly when its inputs are joinable and their
objects hold what the index says, unsealed. -/
theorem gathered_iff {get : ObjectKey → Except Error WholeObject} {work : PlannedInputs}
    {p : PartitionIndex} (h : OfRange s work p) (below : work.plan.stop ≤ i64Max)
    (narrow : work.plan.stop ≤ work.plan.start + compactionPlanRecordsBudget) :
    Gathered get work ↔ Joinable s work ∧ ∀ r ∈ work.inputs, Agrees get work.plan r ∧
      ∀ source ∈ held get work.plan r, source.region.alg = .none := by
  have joinable : Joinable s work ↔ TilesRange work.plan work.inputs (tilingOf work) := by
    rw [h.tiles_iff narrow]
    refine ⟨fun every => every p h.held, fun here p' held' => ?_⟩
    obtain rfl : p = p' := Option.some.inj (h.held.symm.trans held')
    exact here
  rw [joinable]
  constructor
  · intro gathered
    refine ⟨gathered.tiles, fun r hr => ?_⟩
    have member := (h.mem_tilingOf narrow).mpr hr
    exact ⟨gathered.agrees narrow r member, fun source among =>
      gathered.plain source (List.mem_flatMap.mpr ⟨r, member, among⟩)⟩
  · rintro ⟨tiles, each⟩
    refine ⟨fun r hr => ?_, tiles, fun r hr => ?_, fun source among => ?_⟩
    · have := (tiles.2.bounds ((h.mem_tilingOf narrow).mpr hr)).2.2
      exact this.trans below
    · obtain ⟨sources, read, counts⟩ := (each r ((h.mem_tilingOf narrow).mp hr)).1
      obtain ⟨lower, -, upper⟩ := tiles.2.bounds hr
      change r.baseOffset + r.recordCount ≤ _ at upper
      have small := u32Max_of_narrow narrow
      exact ⟨sources, read, by omega⟩
    · obtain ⟨r, hr, among⟩ := List.mem_flatMap.mp among
      exact (each r ((h.mem_tilingOf narrow).mp hr)).2 source among

theorem roundable_of_accounts (wf : ∀ key p, s.partition key = some p → p.WF)
    {candidates : List Candidate} {swept : Sweep} (accounts : Accounts s candidates swept) :
    Roundable swept.round := by
  have place : ∀ work ∈ swept.round, ∃ p, OfRange s work p :=
    fun work h => (accounts.derived work h).ofRange wf
  refine ⟨?_, fun work hwork => ?_, fun work hwork => ?_, accounts.narrow⟩
  · exact (List.nodup_append.mp accounts.once).1
  · obtain ⟨p, h⟩ := place work hwork
    exact h.range.range
  · obtain ⟨p, h⟩ := place work hwork
    exact h.range.stop_le (wf _ p h.held)

theorem admissible_of_accounts {candidates : List Candidate} {swept : Sweep}
    (accounts : Accounts s candidates swept) (roundable : Roundable swept.round) :
    admissible (sortRound swept.round) none 0 = .ok () := by
  refine (admissible_iff roundable.range).mpr ⟨?_, accounts.budget⟩
  refine (List.pairwise_map.mp roundable.once).imp ?_
  intro a b other same
  exact absurd same other

/-- In every reachable index, a sweep is never refused and loses no candidate, its round is
never refused as overlapping or too large, and the round is merged as it should be. -/
theorem sweep_merged_rightly {quota : Option IndexQuota} {pages : List (List MetadataEntry)}
    (folded : pages.foldlM IndexState.apply { quota := quota } = .ok s)
    (candidates : List Candidate) : ∃ swept, sweep s candidates = .ok swept ∧
      Accounts s candidates swept ∧ admissible (sortRound swept.round) none 0 = .ok () ∧
      ∀ get, RoundRightly s get swept.round := by
  have wf := (IndexState.Sound.fold (IndexState.Sound.empty quota) folded).wf
  obtain ⟨swept, h⟩ := sweep_total wf candidates
  have accounts := sweep_accounts wf h
  have roundable := roundable_of_accounts wf accounts
  have admitted := admissible_of_accounts accounts roundable
  have gathers : ∀ get, ∀ work ∈ swept.round, (Gathered get work ↔ Joinable s work ∧
      ∀ r ∈ work.inputs, Agrees get work.plan r ∧
        ∀ source ∈ held get work.plan r, source.region.alg = .none) := by
    intro get work hwork
    obtain ⟨p, place⟩ := (accounts.derived work hwork).ofRange wf
    exact gathered_iff place (roundable.below work hwork) (roundable.narrow work hwork)
  refine ⟨swept, h, accounts, admitted, fun get => ⟨?_, ?_, ?_, ?_, ?_⟩⟩
  · intro none openMultipart namer
    rw [none]
    rfl
  · intro openMultipart namer output object completes
    obtain ⟨went, named⟩ := roundWent_of_object completes
    exact ⟨named, roundLossless_of_went roundable went⟩
  · intro some_ openMultipart namer outcome succeeded
    obtain ⟨output, object, completes, tells, -, records⟩ := roundWent_of_ok some_ succeeded
    obtain ⟨went, -⟩ := roundWent_of_object completes
    exact ⟨output, object, completes, tells,
      records.trans (congrArg List.sum (records_of_gathered went.gathered))⟩
  · rintro ⟨work, hwork, astray⟩ openMultipart namer
    have some_ : swept.round ≠ [] := List.ne_nil_of_mem hwork
    have none : (mergeRound ⟨get, openMultipart⟩ swept.round namer).object = none := by
      by_contra completes
      obtain ⟨⟨output, bytes⟩, completes⟩ := Option.ne_none_iff_exists'.mp completes
      obtain ⟨joinable, each⟩ :=
        (gathers get work hwork).mp ((roundWent_of_object completes).1.gathered work hwork)
      rcases astray with apart | ⟨r, hr, differs⟩
      · exact apart joinable
      · exact differs (each r hr).1
    refine ⟨?_, none⟩
    cases result : (mergeRound ⟨get, openMultipart⟩ swept.round namer).result with
    | error refusal => exact ⟨refusal, rfl⟩
    | ok outcome =>
      obtain ⟨output, bytes, completes, -⟩ := roundWent_of_ok some_ result
      exact absurd (completes.symm.trans none) (Option.some_ne_none _)
  · intro each sealable openMultipart namer output accepting named
    by_cases none : swept.round = []
    · rw [none]
      exact ⟨_, rfl⟩
    · exact mergeRound_succeeds accepting named none admitted
        (fun work hwork => (gathers get work hwork).mpr (each work hwork)) sealable

/-- Thirteen objects of a record for each of two partitions, and one that fills the tail. -/
def bundledLog : List (List MetadataEntry) :=
  let span (partition : Nat) : CommittedSpan := ⟨⟨"t"⟩, partition, 1, .full, none⟩
  [((List.range 13).map fun i =>
      ⟨i, .batchCommitted ⟨"o" ++ toString i⟩ [span 0, span 1] 5⟩) ++
    [⟨13, .batchCommitted ⟨"tail"⟩
      (List.replicate 128 (span 0) ++ List.replicate 128 (span 1)) 5⟩]]

/-- What is held under every key: one region for each partition. -/
def bundledGet (_ : ObjectKey) : Except Error WholeObject :=
  .ok ⟨objectOf [.plain ⟨"t"⟩ 0 ⟨1, none⟩ [7], .plain ⟨"t"⟩ 1 ⟨1, none⟩ [8, 9]], by decide⟩

def bundledCandidates : List Candidate :=
  [⟨⟨"t"⟩, 1, 0⟩, ⟨⟨"t"⟩, 0, 0⟩, ⟨⟨"t"⟩, 1, 5⟩, ⟨⟨"u"⟩, 0, 0⟩]

def sweptOf (pages : List (List MetadataEntry)) (candidates : List Candidate) :
    Except Error (IndexState × Sweep) := do
  let s ← pages.foldlM IndexState.apply { quota := none }
  let swept ← sweep s candidates
  return (s, swept)

theorem ok_of_toOption {ε α : Type*} {x : Except ε α} {a : α} (h : x.toOption = some a) :
    x = .ok a := by
  cases x with
  | error refusal => cases h
  | ok b =>
    cases h
    rfl

/-- Two partitions' plans are merged into one object of the records of both. -/
theorem sweep_merged_rightly_bundled : ∃ s swept outcome,
    bundledLog.foldlM IndexState.apply { quota := none } = .ok s ∧
      sweep s bundledCandidates = .ok swept ∧
      swept.keys = [(⟨"t"⟩, 1), (⟨"t"⟩, 0)] ∧
      (mergeRound ⟨bundledGet, fun _ => takingWriter⟩ swept.round ⟨"w", 0⟩).result = .ok outcome ∧
      outcome.records = 26 ∧ Accounts s bundledCandidates swept ∧
      ∀ get, RoundRightly s get swept.round := by
  have shape : (sweptOf bundledLog bundledCandidates).toOption.map (fun found =>
      (found.2.keys, (mergeRound ⟨bundledGet, fun _ => takingWriter⟩ found.2.round
        ⟨"w", 0⟩).result.toOption.map MergeOutcome.records)) =
      some ([(⟨"t"⟩, 1), (⟨"t"⟩, 0)], some 26) := by decide +kernel
  obtain ⟨⟨s, swept⟩, found, fields⟩ := Option.map_eq_some_iff.mp shape
  obtain ⟨keys, merged⟩ := Prod.mk.inj fields
  obtain ⟨outcome, result, records⟩ := Option.map_eq_some_iff.mp merged
  have run : sweptOf bundledLog bundledCandidates = .ok (s, swept) :=
    ok_of_toOption found
  obtain ⟨_, folded, run⟩ := bind_eq_ok.mp run
  obtain ⟨_, hswept, run⟩ := bind_eq_ok.mp run
  cases run
  obtain ⟨swept', again, accounts, -, rightly⟩ := sweep_merged_rightly folded bundledCandidates
  obtain rfl : swept = swept' := Except.ok.inj (hswept.symm.trans again)
  exact ⟨s, swept, outcome, folded, hswept, keys, ok_of_toOption result, records,
    accounts, rightly⟩

end Compact

end Oqueue
