import Oqueue.Library.Table

/-!
# Which producer line was touched least recently

`order` is the ordered map from stamps to keys, kept as the list it iterates
as; `lastTouch` finds a key's own stamp again. The two are inverse to each
other, which is what makes an eviction forget exactly one key.
-/

namespace Oqueue

universe u

def maxTrackedProducers : Nat := 100000

structure Recency (K : Type u) where
  next : Nat := 0
  order : List (Nat × K) := []
  lastTouch : Finmap fun _ : K => Nat := ∅

namespace Recency

variable {K : Type u} [DecidableEq K]

/-- Records `key` as touched now. Stamps only grow, so a new one goes last. -/
def touch (self : Recency K) (key : K) : Recency K :=
  let order := (self.lastTouch.lookup key).elim self.order fun old =>
    self.order.filter fun held => decide (held.1 ≠ old)
  { next := self.next + 1
    order := order ++ [(self.next, key)]
    lastTouch := (self.lastTouch.erase key).insert key self.next }

/-- The least recently touched key, forgotten as a side effect. -/
def evictOldest (self : Recency K) : Option (K × Recency K) :=
  match self.order with
  | [] => none
  | (stamp, key) :: _ => some (key, { self with
      order := self.order.filter fun held => decide (held.1 ≠ stamp)
      lastTouch := self.lastTouch.erase key })

/-- The two maps are inverse to each other, in stamp order, below the next stamp. -/
structure Coherent (r : Recency K) : Prop where
  ascending : r.order.Pairwise fun a b => a.1 < b.1
  below : ∀ held ∈ r.order, held.1 < r.next
  inverse : ∀ stamp key, (stamp, key) ∈ r.order ↔ r.lastTouch.lookup key = some stamp

theorem Coherent.empty : Coherent ({} : Recency K) where
  ascending := .nil
  below := by simp
  inverse := by simp

theorem Coherent.key_unique {r : Recency K} (coherent : r.Coherent) {stamp stamp' : Nat} {key : K}
    (h : (stamp, key) ∈ r.order) (h' : (stamp', key) ∈ r.order) : stamp = stamp' := by
  have found := (coherent.inverse _ _).mp h
  rw [(coherent.inverse _ _).mp h'] at found
  exact (Option.some.inj found).symm

theorem Coherent.stamp_unique {r : Recency K} (coherent : r.Coherent) {stamp : Nat} {key key' : K}
    (h : (stamp, key) ∈ r.order) (h' : (stamp, key') ∈ r.order) : key = key' := by
  have nodup : (r.order.map Prod.fst).Nodup :=
    List.pairwise_map.mpr (coherent.ascending.imp fun hlt => Nat.ne_of_lt hlt)
  have same := List.inj_on_of_nodup_map nodup h h' rfl
  exact congrArg Prod.snd same

theorem Coherent.mem_forget {r : Recency K} (coherent : r.Coherent) {stamp : Nat} {key : K}
    (held : (stamp, key) ∈ r.order) {stamp' : Nat} {key' : K} :
    (stamp', key') ∈ r.order.filter (fun x => decide (x.1 ≠ stamp)) ↔
      (stamp', key') ∈ r.order ∧ key' ≠ key := by
  simp only [List.mem_filter, decide_eq_true_eq]
  refine and_congr_right fun hmem => not_congr ⟨?_, ?_⟩
  · rintro rfl
    exact coherent.stamp_unique hmem held
  · rintro rfl
    exact coherent.key_unique hmem held

theorem Coherent.touch {r : Recency K} (coherent : r.Coherent) (key : K) :
    (r.touch key).Coherent := by
  unfold Recency.touch
  have kept : ∃ order, (r.lastTouch.lookup key).elim r.order (fun old =>
        r.order.filter fun held => decide (held.1 ≠ old)) = order ∧ order.Sublist r.order ∧
      ∀ stamp key', (stamp, key') ∈ order ↔ (stamp, key') ∈ r.order ∧ key' ≠ key := by
    cases hold : r.lastTouch.lookup key with
    | none =>
      refine ⟨r.order, rfl, List.Sublist.refl _, ?_⟩
      intro stamp key'
      refine (and_iff_left_of_imp ?_).symm
      rintro hmem rfl
      rw [(coherent.inverse _ _).mp hmem] at hold
      cases hold
    | some old =>
      exact ⟨_, rfl, List.filter_sublist, fun _ _ =>
        coherent.mem_forget ((coherent.inverse _ _).mpr hold)⟩
  obtain ⟨order, horder, sub, hmem⟩ := kept
  rw [horder]
  refine ⟨?_, ?_, ?_⟩
  · refine List.pairwise_append.mpr ⟨coherent.ascending.sublist sub, List.pairwise_singleton _ _, ?_⟩
    intro a ha b hb
    rw [List.mem_singleton] at hb
    subst hb
    exact coherent.below a (sub.subset ha)
  · intro held hheld
    rcases List.mem_append.mp hheld with h | h
    · exact Nat.lt_succ_of_lt (coherent.below held (sub.subset h))
    · rw [List.mem_singleton] at h
      subst h
      exact Nat.lt_succ_self _
  · intro stamp key'
    rw [List.mem_append, hmem, coherent.inverse, List.mem_singleton, Table.lookup_insert_eq,
      Table.lookup_erase_eq]
    by_cases same : key' = key
    · simp [same, eq_comm]
    · simp [same]

theorem Coherent.evictOldest {r r' : Recency K} (coherent : r.Coherent) {key : K}
    (h : r.evictOldest = some (key, r')) :
    r'.Coherent ∧ key ∈ r.lastTouch ∧ r'.lastTouch = r.lastTouch.erase key := by
  unfold Recency.evictOldest at h
  split at h
  · cases h
  · rename_i stamp oldest rest horder
    cases h
    have held : (stamp, key) ∈ r.order := by simp [horder]
    refine ⟨⟨coherent.ascending.sublist List.filter_sublist, ?_, ?_⟩, ?_, rfl⟩
    · exact fun x hx => coherent.below x (List.mem_filter.mp hx).1
    · intro stamp' key'
      rw [coherent.mem_forget held, coherent.inverse, Table.lookup_erase_eq]
      by_cases same : key' = key <;> simp [same]
    · exact Finmap.mem_of_lookup_eq_some ((coherent.inverse _ _).mp held)

theorem Coherent.evictOldest_isSome {r : Recency K} (coherent : r.Coherent) {key : K}
    (tracked : key ∈ r.lastTouch) : ∃ out, r.evictOldest = some out := by
  obtain ⟨stamp, hstamp⟩ := Finmap.mem_iff.mp tracked
  have held := (coherent.inverse _ _).mpr hstamp
  unfold Recency.evictOldest
  split
  · rename_i empty
    simp [empty] at held
  · exact ⟨_, rfl⟩

@[simp] theorem touch_lastTouch (r : Recency K) (key : K) :
    (r.touch key).lastTouch = (r.lastTouch.erase key).insert key r.next := rfl

end Recency

end Oqueue
