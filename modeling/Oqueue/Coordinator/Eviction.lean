import Oqueue.Coordinator.Allocator
import Oqueue.Library.LastSeen

/-!
# The producer lines an allocator forgets

The order of the stamps is the order of the last touches, so what is evicted is
what was touched longest ago, and what is left after every commit is the lines
touched most recently, as many as there may be.
-/

namespace Oqueue

open Allocator

namespace Recency

universe u
variable {K : Type u} [DecidableEq K] {r r' : Recency K}

def keys (r : Recency K) : List K := r.order.map Prod.snd

theorem Coherent.mem_keys (coherent : r.Coherent) {key : K} :
    key ∈ r.keys ↔ key ∈ r.lastTouch := by
  unfold keys
  rw [List.mem_map, Finmap.mem_iff]
  constructor
  · rintro ⟨⟨stamp, _⟩, held, rfl⟩
    exact ⟨stamp, (coherent.inverse _ _).mp held⟩
  · rintro ⟨stamp, found⟩
    exact ⟨(stamp, key), (coherent.inverse _ _).mpr found, rfl⟩

theorem Coherent.nodup_keys (coherent : r.Coherent) : r.keys.Nodup := by
  refine List.pairwise_map.mpr (coherent.ascending.imp_of_mem fun ha hb less same => ?_)
  exact absurd (coherent.key_unique ha (same ▸ hb)) (Nat.ne_of_lt less)

theorem Coherent.keys_forget (coherent : r.Coherent) {stamp : Nat} {key : K}
    (held : (stamp, key) ∈ r.order) :
    (r.order.filter fun x => decide (x.1 ≠ stamp)).map Prod.snd = r.keys.erase key := by
  have same : (r.order.filter fun x => decide (x.1 ≠ stamp)) =
      r.order.filter ((fun key' => key' != key) ∘ Prod.snd) := by
    refine List.filter_congr fun x member => ?_
    have agree : x ∈ r.order.filter (fun x => decide (x.1 ≠ stamp)) ↔
        x ∈ r.order ∧ x.2 ≠ key := coherent.mem_forget held
    rw [List.mem_filter, and_congr_right_iff] at agree
    rw [Bool.eq_iff_iff, agree member]
    exact bne_iff_ne.symm
  rw [same, ← List.filter_map, coherent.nodup_keys.erase_eq_filter]
  rfl

theorem Coherent.keys_touch (coherent : r.Coherent) (key : K) :
    (r.touch key).keys = r.keys.erase key ++ [key] := by
  have order : (r.touch key).keys = ((r.lastTouch.lookup key).elim r.order fun old =>
      r.order.filter fun held => decide (held.1 ≠ old)).map Prod.snd ++ [key] := List.map_append
  rw [order]
  cases touched : r.lastTouch.lookup key with
  | none =>
    have fresh : key ∉ r.keys := by
      rw [coherent.mem_keys]
      exact Finmap.lookup_eq_none.mp touched
    rw [List.erase_of_not_mem fresh]
    rfl
  | some old => rw [Option.elim_some, coherent.keys_forget ((coherent.inverse _ _).mpr touched)]

theorem Coherent.keys_evictOldest (coherent : r.Coherent) {key : K}
    (evicts : r.evictOldest = some (key, r')) : r.keys = key :: r'.keys := by
  unfold Recency.evictOldest at evicts
  split at evicts
  · cases evicts
  · rename_i stamp oldest rest order
    cases evicts
    have held : (stamp, key) ∈ r.order := by
      rw [order]
      exact List.mem_cons_self ..
    have first : r.keys = key :: rest.map Prod.snd := by
      unfold keys
      rw [order, List.map_cons]
    have left : keys { r with
        order := r.order.filter fun held => decide (held.1 ≠ stamp)
        lastTouch := r.lastTouch.erase key } = r.keys.erase key := coherent.keys_forget held
    rw [left, first, List.erase_cons_head]

theorem evictOldest_next {key : K} (evicts : r.evictOldest = some (key, r')) :
    r'.next = r.next := by
  unfold Recency.evictOldest at evicts
  split at evicts
  · cases evicts
  · cases evicts
    rfl

/-- What is evicted was touched before everything else that is tracked. -/
theorem Coherent.evictOldest_least (coherent : r.Coherent) {key : K}
    (evicts : r.evictOldest = some (key, r')) {stamp : Nat}
    (touched : r.lastTouch.lookup key = some stamp) {other : K} {stamp' : Nat}
    (also : r.lastTouch.lookup other = some stamp') : stamp ≤ stamp' := by
  unfold Recency.evictOldest at evicts
  split at evicts
  · cases evicts
  · rename_i first oldest rest order
    cases evicts
    have ascending := coherent.ascending
    have held := (coherent.inverse _ _).mpr touched
    have also := (coherent.inverse _ _).mpr also
    have atFirst : (first, key) ∈ r.order := by
      rw [order]
      exact List.mem_cons_self ..
    cases coherent.key_unique held atFirst
    rw [order] at ascending also
    rcases List.mem_cons.mp also with same | later
    · cases same
      exact Nat.le_refl _
    · exact Nat.le_of_lt (List.rel_of_pairwise_cons ascending later)

end Recency

namespace Allocator

section
variable {state : Finmap fun _ : ProducerLine => ProducerState} {recency : Recency ProducerLine}
  {touched : List ProducerLine}

def LastAt (touched : List ProducerLine) (line : ProducerLine) (at_ : Nat) : Prop :=
  touched[at_]? = some line ∧ ∀ later, at_ < later → touched[later]? ≠ some line

/-- Every stamp is the place in this history at which its line was last touched. -/
structure Stamped (touched : List ProducerLine) (recency : Recency ProducerLine) : Prop where
  next : recency.next = touched.length
  last : ∀ line stamp, recency.lastTouch.lookup line = some stamp → LastAt touched line stamp

/-- What the loops of `apply` keep: the lines tracked are the most recent of the history, and none
was forgotten while there were no more than the cap. -/
structure Recent (cap : Nat) (touched : List ProducerLine)
    (state : Finmap fun _ : ProducerLine => ProducerState) (recency : Recency ProducerLine) :
    Prop where
  tracked : Tracked state recency
  stamped : Stamped touched recency
  suffix : recency.keys <:+ touched.dedup
  full : min cap touched.dedup.length ≤ recency.keys.length

theorem Tracked.card_eq (tracked : Tracked state recency) :
    state.keys.card = recency.keys.length := by
  rw [← List.toFinset_card_of_nodup tracked.coherent.nodup_keys]
  congr 1
  ext line
  rw [Finmap.mem_keys, tracked.same, List.mem_toFinset, tracked.coherent.mem_keys]

theorem Tracked.evictOldest (tracked : Tracked state recency) {line : ProducerLine}
    {recency' : Recency ProducerLine} (evicts : recency.evictOldest = some (line, recency')) :
    Tracked (state.erase line) recency' := by
  obtain ⟨coherent, -, herase⟩ := tracked.coherent.evictOldest evicts
  refine ⟨coherent, fun other => ?_⟩
  rw [herase, Finmap.mem_erase, Finmap.mem_erase, tracked.same]

theorem Stamped.touch (stamped : Stamped touched recency) (line : ProducerLine) :
    Stamped (touched ++ [line]) (recency.touch line) where
  next := by
    rw [List.length_append, ← stamped.next]
    rfl
  last := by
    intro other stamp found
    rw [Recency.touch_lastTouch, Table.lookup_insert_eq, Table.lookup_erase_eq] at found
    by_cases same : other = line
    · rw [if_pos same, stamped.next] at found
      cases found
      constructor
      · rw [List.getElem?_concat_length, same]
      · intro later past
        rw [List.getElem?_eq_none (by rw [List.length_append]; exact past)]
        exact nofun
    · rw [if_neg same, if_neg same] at found
      obtain ⟨here, after⟩ := stamped.last other stamp found
      obtain ⟨inside, -⟩ := List.getElem?_eq_some_iff.mp here
      constructor
      · rw [List.getElem?_append_left inside, here]
      · intro later past again
        rcases Nat.lt_or_ge later touched.length with within | beyond
        · rw [List.getElem?_append_left within] at again
          exact after later past again
        · rw [List.getElem?_append_right beyond] at again
          have named := List.mem_singleton.mp (List.mem_of_getElem? again)
          exact same named

theorem Recent.touch {cap : Nat} (recent : Recent cap touched state recency) (line : ProducerLine)
    (held : ProducerState) :
    Recent cap (touched ++ [line]) (state.insert line held) (recency.touch line) where
  tracked := recent.tracked.touch line held
  stamped := recent.stamped.touch line
  suffix := by
    rw [recent.tracked.coherent.keys_touch]
    exact recent.suffix.dedup_concat line
  full := by
    rw [recent.tracked.coherent.keys_touch]
    exact recent.suffix.full_concat recent.full line

theorem Recent.evictRounds {cap : Nat} (rounds : Nat) (recent : Recent cap touched state recency) :
    Recent cap touched (evictRounds cap rounds state recency).1
      (evictRounds cap rounds state recency).2 := by
  induction rounds generalizing state recency with
  | zero => exact recent
  | succ rounds ih =>
    unfold Allocator.evictRounds
    split
    · exact recent
    · rename_i crowded
      split
      · exact recent
      · rename_i oldest recency' evicts
        have first := recent.tracked.coherent.keys_evictOldest evicts
        obtain ⟨-, -, herase⟩ := recent.tracked.coherent.evictOldest evicts
        have suffix := recent.suffix
        rw [recent.tracked.card_eq, first, List.length_cons] at crowded
        rw [first] at suffix
        refine ih ⟨recent.tracked.evictOldest evicts, ?_, (List.suffix_cons ..).trans suffix, ?_⟩
        · refine ⟨?_, fun line stamp found => ?_⟩
          · rw [Recency.evictOldest_next evicts]
            exact recent.stamped.next
          · rw [herase, Table.lookup_erase_eq] at found
            split at found
            · cases found
            · exact recent.stamped.last line stamp found
        · exact (Nat.min_le_left ..).trans (by omega)

end

theorem LastAt.unique {line : ProducerLine} {i j : Nat} (first : LastAt touched line i)
    (second : LastAt touched line j) : i = j := by
  rcases Nat.lt_trichotomy i j with less | same | more
  · exact absurd second.1 (first.2 j less)
  · exact same
  · exact absurd first.1 (second.2 i more)

theorem Recent.least {cap : Nat} (recent : Recent cap touched state recency) {line : ProducerLine}
    {recency' : Recency ProducerLine} (evicts : recency.evictOldest = some (line, recency'))
    {other : ProducerLine} (tracked : other ∈ recency.lastTouch) {i j : Nat}
    (at_ : LastAt touched line i) (also : LastAt touched other j) : i ≤ j := by
  obtain ⟨-, held, -⟩ := recent.tracked.coherent.evictOldest evicts
  obtain ⟨stamp, found⟩ := Finmap.mem_iff.mp held
  obtain ⟨stamp', found'⟩ := Finmap.mem_iff.mp tracked
  rw [at_.unique (recent.stamped.last _ _ found), also.unique (recent.stamped.last _ _ found')]
  exact recent.tracked.coherent.evictOldest_least evicts found found'

/-- The producers as `apply` has touched them, before it evicts. -/
def touchEnds (ends : List (ProducerLine × ProducerState))
    (held : (Finmap fun _ : ProducerLine => ProducerState) × Recency ProducerLine) :
    (Finmap fun _ : ProducerLine => ProducerState) × Recency ProducerLine :=
  ends.foldl (fun held e => (held.1.insert e.1 e.2, held.2.touch e.1)) held

def touches (applied : List Staged) : List ProducerLine :=
  applied.flatMap fun staged => staged.producerEnds.map Prod.fst

def applyAll (applied : List Staged) : Allocator :=
  applied.foldl (fun (a : Allocator) staged => (a.apply staged).1) {}

/-- What eviction leaves of the lines that were ever touched. -/
structure EvictsOldest (touched : List ProducerLine) (a : Allocator) : Prop where
  /-- The two maps of the recency are inverse to each other. -/
  inverse : ∀ stamp line, (stamp, line) ∈ a.producerRecency.order ↔
    a.producerRecency.lastTouch.lookup line = some stamp
  /-- They track the lines that have a state. -/
  same : ∀ line, line ∈ a.producerState ↔ line ∈ a.producerRecency.lastTouch
  /-- A stamp is when its line was last touched. -/
  last : ∀ line stamp, a.producerRecency.lastTouch.lookup line = some stamp →
    LastAt touched line stamp
  /-- Whatever is applied next, every round of its eviction removes the line touched before
  everything else that is tracked then. -/
  least : ∀ ends rounds line recency',
    let touching := touchEnds ends (a.producerState, a.producerRecency)
    let held := evictRounds maxTrackedProducers rounds touching.1 touching.2
    held.2.evictOldest = some (line, recency') →
      line ∈ held.1 ∧ ∀ other ∈ held.1, ∀ i j, LastAt (touched ++ ends.map Prod.fst) line i →
        LastAt (touched ++ ends.map Prod.fst) other j → i ≤ j
  bounded : a.producerState.keys.card ≤ maxTrackedProducers
  /-- The lines left are the ones touched most recently, as many as there may be. -/
  recent : a.producerRecency.order.map Prod.snd =
    touched.dedup.drop (touched.dedup.length - maxTrackedProducers)

theorem Recent.touchEnds {cap : Nat} {touched : List ProducerLine}
    {held : (Finmap fun _ : ProducerLine => ProducerState) × Recency ProducerLine}
    (recent : Recent cap touched held.1 held.2) (ends : List (ProducerLine × ProducerState)) :
    Recent cap (touched ++ ends.map Prod.fst) (Allocator.touchEnds ends held).1
      (Allocator.touchEnds ends held).2 := by
  induction ends generalizing touched held with
  | nil =>
    rw [List.map_nil, List.append_nil]
    exact recent
  | cons e ends ih =>
    have touching : Recent cap (touched ++ [e.1]) (held.1.insert e.1 e.2, held.2.touch e.1).1
        (held.1.insert e.1 e.2, held.2.touch e.1).2 := recent.touch e.1 e.2
    have next := ih touching
    rw [List.append_assoc, List.singleton_append] at next
    exact next

theorem Recent.apply {touched : List ProducerLine} {a : Allocator}
    (recent : Recent maxTrackedProducers touched a.producerState a.producerRecency)
    (staged : Staged) :
    Recent maxTrackedProducers (touched ++ staged.producerEnds.map Prod.fst)
      (a.apply staged).1.producerState (a.apply staged).1.producerRecency ∧
      (a.apply staged).1.producerState.keys.card ≤ maxTrackedProducers := by
  have before : Recent maxTrackedProducers (touched ++ staged.producerEnds.map Prod.fst)
      (Allocator.touchEnds staged.producerEnds (a.producerState, a.producerRecency)).1
      (Allocator.touchEnds staged.producerEnds (a.producerState, a.producerRecency)).2 :=
    Recent.touchEnds recent staged.producerEnds
  exact ⟨before.evictRounds _, before.tracked.evictOverCap_le maxTrackedProducers⟩

theorem Recent.empty (cap : Nat) : Recent cap [] ∅ {} where
  tracked := .empty
  stamped := ⟨rfl, fun line stamp found => by cases found⟩
  suffix := List.suffix_rfl
  full := Nat.min_le_right ..

/-- After every sequence of applies what is tracked is what was touched last. -/
theorem applied_evicts_oldest (applied : List Staged) :
    EvictsOldest (touches applied) (applyAll applied) := by
  have kept : Recent maxTrackedProducers (touches applied) (applyAll applied).producerState
      (applyAll applied).producerRecency ∧
      (applyAll applied).producerState.keys.card ≤ maxTrackedProducers := by
    induction applied using List.reverseRecOn with
    | nil => exact ⟨.empty _, Nat.zero_le _⟩
    | append_singleton applied staged ih =>
      have next := ih.1.apply staged
      unfold touches applyAll at next ⊢
      rw [List.flatMap_append, List.flatMap_singleton, List.foldl_append]
      exact next
  obtain ⟨recent, bounded⟩ := kept
  constructor
  case inverse => exact recent.tracked.coherent.inverse
  case same => exact recent.tracked.same
  case last => exact recent.stamped.last
  case least =>
    intro ends rounds line recency' touching held evicts
    have before : Recent maxTrackedProducers (touches applied ++ ends.map Prod.fst) touching.1
        touching.2 := Recent.touchEnds recent ends
    have during := before.evictRounds rounds
    refine ⟨(during.tracked.same line).mpr (during.tracked.coherent.evictOldest evicts).2.1, ?_⟩
    intro other tracked i j at_ also
    exact during.least evicts ((during.tracked.same other).mp tracked) at_ also
  case bounded => exact bounded
  case recent =>
    refine recent.suffix.eq_drop ?_ recent.full
    rw [← recent.tracked.card_eq]
    exact bounded

end Allocator

end Oqueue
