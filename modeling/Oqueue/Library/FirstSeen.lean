import Mathlib.Data.List.GetD
import Mathlib.Data.List.Induction
import Mathlib.Data.List.Nodup
import Mathlib.Data.List.TakeWhile

/-!
# The order in which keys first occur

Items carry keys, some items are kept, and some keys are good. The good keys that lead, in
the order the keys first occur, are those of the kept items alone exactly when no other item
comes in between.
-/

namespace FirstSeen

variable {ι κ ν : Type*} [DecidableEq κ] [DecidableEq ν]

theorem nodup_eraseDups (keys : List κ) : keys.eraseDups.Nodup := by
  induction hlen : keys.length using Nat.strongRecOn generalizing keys with
  | ind n ih =>
    cases keys with
    | nil => exact List.nodup_nil
    | cons k rest =>
      rw [List.eraseDups_cons, List.nodup_cons]
      refine ⟨fun among => ?_, ih _ ?_ _ rfl⟩
      · have := List.mem_filter.mp (List.mem_eraseDups.mp among)
        simp at this
      · have := List.length_filter_le (fun b => !b == k) rest
        simp only [List.length_cons] at hlen
        omega

theorem eraseDups_snoc (keys : List κ) (k : κ) :
    (keys ++ [k]).eraseDups = if k ∈ keys then keys.eraseDups else keys.eraseDups ++ [k] := by
  rw [List.eraseDups_append]
  by_cases among : k ∈ keys
  · simp [List.removeAll, among]
  · simp [List.removeAll, among, List.eraseDups_cons]

theorem filter_snoc (q : ι → Bool) (items : List ι) (item : ι) : (items ++ [item]).filter q =
    if q item = true then items.filter q ++ [item] else items.filter q := by
  rw [List.filter_append, List.filter_singleton]
  cases q item <;> simp

variable (key : ι → κ) (keep : ι → Bool) (good : κ → Bool)

def keysOf (items : List ι) : List κ := (items.map key).eraseDups

def lead (items : List ι) : List κ := (keysOf key items).takeWhile good

/-- When a kept item brings a new key, with only good ones kept before it, whatever was not
kept has brought no other key that tells. -/
def InOrder (items : List ι) : Prop :=
  ∀ before item after, items = before ++ item :: after → keep item = true →
    key item ∉ (before.filter keep).map key →
    (∀ k ∈ (before.filter keep).map key, good k = true) →
    ∀ other ∈ before, keep other = false →
      key other ∈ (before.filter keep).map key ∨ key other = key item ∨
        (good (key item) = false ∧ good (key other) = false)

variable {key keep good}

theorem mem_keysOf {items : List ι} {k : κ} : k ∈ keysOf key items ↔ k ∈ items.map key :=
  List.mem_eraseDups

theorem nodup_keysOf (items : List ι) : (keysOf key items).Nodup := nodup_eraseDups _

theorem keysOf_snoc (items : List ι) (item : ι) : keysOf key (items ++ [item]) =
    if key item ∈ items.map key then keysOf key items else keysOf key items ++ [key item] := by
  unfold keysOf
  rw [List.map_append, List.map_cons, List.map_nil, eraseDups_snoc]

/-- What a pass over a prefix has settled: either the kept keys are good so far and stand
before all others, or both orders end at a bad key at one place. -/
def Settles (key : ι → κ) (good : κ → Bool) (some kept : List ι) : Prop :=
  ((∀ k ∈ keysOf key kept, good k = true) ∧ ∃ extra, keysOf key some = keysOf key kept ++ extra) ∨
  ∃ front bad rest bad' rest', (∀ k ∈ front, good k = true) ∧ good bad = false ∧
    good bad' = false ∧ keysOf key some = front ++ bad :: rest ∧
    keysOf key kept = front ++ bad' :: rest'

theorem keysOf_extends (items : List ι) (item : ι) :
    ∃ more, keysOf key (items ++ [item]) = keysOf key items ++ more := by
  rw [keysOf_snoc]
  split
  · exact ⟨[], (List.append_nil _).symm⟩
  · exact ⟨[key item], rfl⟩

theorem Settles.ended {some kept some' kept' : List ι} {front rest rest' : List κ} {bad bad' : κ}
    (fine : ∀ k ∈ front, good k = true) (hbad : good bad = false) (hbad' : good bad' = false)
    (h : keysOf key some = front ++ bad :: rest) (h' : keysOf key kept = front ++ bad' :: rest')
    (more : ∃ extra, keysOf key some' = keysOf key some ++ extra)
    (more' : ∃ extra, keysOf key kept' = keysOf key kept ++ extra) :
    Settles key good some' kept' := by
  rcases more with ⟨extra, hmore⟩
  rcases more' with ⟨extra', hmore'⟩
  refine .inr ⟨front, bad, rest ++ extra, bad', rest' ++ extra', fine, hbad, hbad', ?_, ?_⟩
  · rw [hmore, h, List.append_assoc, List.cons_append]
  · rw [hmore', h', List.append_assoc, List.cons_append]

section
variable {some kept : List ι} {extra : List κ} {item : ι}
  (fine : ∀ k ∈ keysOf key kept, good k = true) (h : keysOf key some = keysOf key kept ++ extra)
  (fresh : key item ∉ kept.map key)
include fine h fresh

theorem Settles.snoc_good (fits : good (key item) = true) (only : ∀ k ∈ extra, k = key item) :
    Settles key good (some ++ [item]) (kept ++ [item]) := by
  have single := @nodup_keysOf _ _ _ key some
  rw [h] at single
  replace single := (List.nodup_append.mp single).2.1
  left
  rw [keysOf_snoc, if_neg fresh]
  refine ⟨?_, [], ?_⟩
  · intro k hk
    rcases List.mem_append.mp hk with hk | hk
    · exact fine k hk
    · rw [List.mem_singleton.mp hk]
      exact fits
  · rw [List.append_nil, keysOf_snoc, h]
    cases extra with
    | nil =>
      rw [List.append_nil] at h ⊢
      rw [if_neg]
      intro among
      exact fresh (mem_keysOf.mp (h ▸ mem_keysOf.mpr among))
    | cons k rest =>
      have first := only k (List.mem_cons_self ..)
      have none : rest = [] := by
        cases rest with
        | nil => rfl
        | cons k' rest =>
          have second := only k' (by simp)
          simp [first, second] at single
      rw [none, first, if_pos]
      exact mem_keysOf.mp (by simp [h, first])

theorem Settles.snoc_bad (fits : good (key item) = false) (bads : ∀ k ∈ extra, good k = false) :
    Settles key good (some ++ [item]) (kept ++ [item]) := by
  right
  rw [keysOf_snoc kept, if_neg fresh]
  cases extra with
  | nil =>
    have fresh' : key item ∉ some.map key := by
      intro among
      rw [List.append_nil] at h
      exact fresh (mem_keysOf.mp (h ▸ mem_keysOf.mpr among))
    refine ⟨_, key item, [], key item, [], fine, fits, fits, ?_, rfl⟩
    rw [keysOf_snoc, if_neg fresh', h, List.append_nil]
  | cons k rest =>
    obtain ⟨more, hmore⟩ := @keysOf_extends _ _ _ key some item
    refine ⟨_, k, rest ++ more, key item, [], fine, bads k (List.mem_cons_self ..), fits, ?_, rfl⟩
    rw [hmore, h, List.append_assoc, List.cons_append]

end

theorem settles_of_inOrder {items : List ι} (order : InOrder key keep good items) {p : ι → Bool}
    (covers : ∀ item, keep item = true → p item = true) (before after : List ι)
    (split : items = before ++ after) :
    Settles key good (before.filter p) (before.filter keep) := by
  induction before using List.reverseRecOn generalizing after with
  | nil => exact .inl ⟨by simp [keysOf], [], rfl⟩
  | append_singleton before item ih =>
    have earlier := ih (item :: after) (by rw [split, List.append_assoc, List.singleton_append])
    rw [filter_snoc, filter_snoc]
    cases kept : keep item with
    | false =>
      rw [if_neg Bool.false_ne_true]
      cases inside : p item with
      | false =>
        rw [if_neg Bool.false_ne_true]
        exact earlier
      | true =>
        rw [if_pos rfl]
        obtain ⟨more, hmore⟩ := @keysOf_extends _ _ _ key (before.filter p) item
        rcases earlier with ⟨fine, extra, h⟩ |
          ⟨front, bad, rest, bad', rest', fine, hbad, hbad', h, h'⟩
        · exact .inl ⟨fine, extra ++ more, by rw [hmore, h, List.append_assoc]⟩
        · exact .ended fine hbad hbad' h h' ⟨more, hmore⟩ ⟨[], (List.append_nil _).symm⟩
    | true =>
      rw [if_pos rfl, if_pos (covers item kept)]
      rcases earlier with ⟨fine, extra, h⟩ |
        ⟨front, bad, rest, bad', rest', fine, hbad, hbad', h, h'⟩
      swap
      · exact .ended fine hbad hbad' h h' (keysOf_extends _ item) (keysOf_extends _ item)
      have known {k : κ} : k ∈ keysOf key (before.filter p) ↔
          k ∈ keysOf key (before.filter keep) ∨ k ∈ extra := by rw [h, List.mem_append]
      by_cases old : key item ∈ (before.filter keep).map key
      · have old' := mem_keysOf.mp (known.mpr (.inl (mem_keysOf.mpr old)))
        rw [Settles, keysOf_snoc, keysOf_snoc, if_pos old, if_pos old']
        exact .inl ⟨fine, extra, h⟩
      -- What was seen and not kept brings nothing but the key at hand, or tells nothing.
      have spare : ∀ k ∈ extra, k = key item ∨ (good (key item) = false ∧ good k = false) := by
        intro k hk
        have apart : k ∉ (before.filter keep).map key := by
          have nodup := @nodup_keysOf _ _ _ key (before.filter p)
          rw [h] at nodup
          exact fun among => (List.nodup_append.mp nodup).2.2 k (mem_keysOf.mpr among) k hk rfl
        obtain ⟨other, hother, rfl⟩ := List.mem_map.mp (mem_keysOf.mp (known.mpr (.inr hk)))
        have among := List.mem_of_mem_filter hother
        have dropped : keep other = false := by
          by_contra kept
          exact apart (List.mem_map.mpr ⟨other, List.mem_filter.mpr ⟨among, by simpa using kept⟩, rfl⟩)
        have lined := order before item after (by rw [split, List.append_assoc]; rfl) kept old
          (fun k hk => fine k (mem_keysOf.mpr hk)) other among dropped
        exact lined.resolve_left apart
      cases fits : good (key item) with
      | true =>
        refine .snoc_good fine h old fits fun k hk => ?_
        rcases spare k hk with same | ⟨bad, -⟩
        · exact same
        · exact absurd fits (by simp [bad])
      | false =>
        refine .snoc_bad fine h old fits fun k hk => ?_
        rcases spare k hk with same | ⟨-, bad⟩
        · exact same ▸ fits
        · exact bad

/-- While the order holds, the good keys that lead are those of the kept items, whatever else
is left out. -/
theorem lead_of_inOrder {items : List ι} (order : InOrder key keep good items)
    (needed : ∀ k, good k = true → k ∈ (items.filter keep).map key) {p : ι → Bool}
    (covers : ∀ item, keep item = true → p item = true) :
    lead key good (items.filter p) = lead key good (items.filter keep) := by
  unfold lead
  rcases settles_of_inOrder order covers items [] (List.append_nil _).symm with
    ⟨fine, extra, h⟩ | ⟨front, bad, rest, bad', rest', fine, hbad, hbad', h, h'⟩
  · have nodup := @nodup_keysOf _ _ _ key (items.filter p)
    rw [h] at nodup ⊢
    have bads : extra.takeWhile good = [] := by
      cases extra with
      | nil => rfl
      | cons k rest =>
        have bad : good k = false := by
          by_contra fits
          have among := mem_keysOf.mpr (needed k (by simpa using fits))
          exact (List.nodup_append.mp nodup).2.2 k among k (List.mem_cons_self ..) rfl
        simp [bad]
    rw [List.takeWhile_append_of_pos fine, bads, List.append_nil,
      List.takeWhile_eq_self_iff.mpr fine]
  · rw [h, h', List.takeWhile_append_of_pos fine, List.takeWhile_append_of_pos fine]
    simp [hbad, hbad']

theorem lead_after {kept : List ι} {more : List ι} {k : κ} {rest : List κ}
    (fine : ∀ k ∈ kept.map key, good k = true)
    (new : (more.map key).removeAll (kept.map key) = k :: rest) :
    ∃ rest', lead key good (kept ++ more) = keysOf key kept ++ (k :: rest').takeWhile good := by
  refine ⟨(rest.filter fun b => !b == k).eraseDups, ?_⟩
  unfold lead keysOf
  rw [List.map_append, List.eraseDups_append, new, List.eraseDups_cons, List.takeWhile_append_of_pos]
  exact fun k hk => fine k (List.mem_eraseDups.mp hk)

/-- Where the order breaks, one item that is not kept makes the difference. -/
theorem exists_lead_ne {items : List ι} {name : ι → ν} (named : (items.map name).Nodup)
    (disorder : ¬ InOrder key keep good items) :
    ∃ other ∈ items, keep other = false ∧
      lead key good (items.filter fun item => keep item || decide (name item = name other)) ≠
        lead key good (items.filter keep) := by
  unfold InOrder at disorder
  push Not at disorder
  obtain ⟨before, item, after, rfl, kept, new, fine, other, hother, dropped, apart, differs, tells⟩ :=
    disorder
  obtain ⟨early, late, rfl⟩ := List.append_of_mem hother
  refine ⟨other, by simp, dropped, ?_⟩
  have plain (some : List ι) (away : ∀ i ∈ some, name i ≠ name other) :
      some.filter (fun i => keep i || decide (name i = name other)) = some.filter keep :=
    List.filter_congr fun i hi => by simp [away i hi]
  rw [List.append_assoc, List.cons_append, List.map_append, List.map_cons] at named
  have once := List.nodup_append.mp named
  have onEarly : ∀ i ∈ early, name i ≠ name other := fun i hi =>
    once.2.2 _ (List.mem_map_of_mem hi) _ (List.mem_cons_self ..)
  have onLate : ∀ i ∈ late ++ item :: after, name i ≠ name other := fun i hi same =>
    (List.nodup_cons.mp once.2.1).1 (same ▸ List.mem_map_of_mem hi)
  rw [List.append_assoc, List.cons_append, List.filter_append, List.filter_append, plain early onEarly,
    List.filter_cons_of_pos (by simp), plain _ onLate, List.filter_cons_of_neg (by simp [dropped])]
  rw [List.filter_append, List.filter_cons_of_neg (by simp [dropped]), List.map_append] at new fine apart
  have fineEarly : ∀ k ∈ (early.filter keep).map key, good k = true := fun k hk =>
    fine k (List.mem_append_left _ hk)
  have otherNew : key other ∉ (early.filter keep).map key := fun among =>
    apart (List.mem_append_left _ among)
  have itemNew : key item ∉ (early.filter keep).map key := fun among =>
    new (List.mem_append_left _ among)
  obtain ⟨tail, htail⟩ := @lead_after _ _ _ _ _ _ (other :: (late ++ item :: after).filter keep) _ _
    fineEarly (by rw [List.map_cons, List.removeAll, List.filter_cons_of_pos (by simpa using otherNew)])
  -- Of the kept keys alone, another comes next, and one of the two is good.
  obtain ⟨k, rest, hk, other_ne, told⟩ : ∃ k rest,
      (((late ++ item :: after).filter keep).map key).removeAll ((early.filter keep).map key) =
        k :: rest ∧ key other ≠ k ∧ (good k = false → good (key other) ≠ false) := by
    rw [List.filter_append, List.filter_cons_of_pos kept, List.map_append, List.map_cons,
      List.removeAll, List.filter_append]
    cases between : ((late.filter keep).map key).filter
        fun k => !((early.filter keep).map key).elem k with
    | nil =>
      rw [List.nil_append, List.filter_cons_of_pos (by simpa using itemNew)]
      exact ⟨_, _, rfl, differs, tells⟩
    | cons k rest =>
      have among : k ∈ (late.filter keep).map key :=
        List.mem_of_mem_filter (between ▸ List.mem_cons_self ..)
      refine ⟨k, _, rfl, ?_, fun bad => ?_⟩
      · exact fun same => apart (List.mem_append_right _ (same ▸ among))
      · exact absurd (fine k (List.mem_append_right _ among)) (by simp [bad])
  obtain ⟨tail', htail'⟩ := lead_after fineEarly hk
  rw [htail, htail']
  intro same
  have heads := List.append_cancel_left same
  cases goodOther : good (key other) <;> cases goodNext : good k
  · exact told goodNext goodOther
  · simp [goodOther, goodNext] at heads
  · simp [goodOther, goodNext] at heads
  · simp only [List.takeWhile_cons, goodOther, goodNext, if_true] at heads
    exact other_ne (List.cons.inj heads).1

omit [DecidableEq κ] in
/-- Two orders that differ differ in what comes among the first so many. -/
theorem exists_take_ne {xs ys : List κ} (once : xs.Nodup) (once' : ys.Nodup) (differ : xs ≠ ys) :
    ∃ n k, (k ∈ xs.take n ∧ k ∉ ys.take n) ∨ (k ∈ ys.take n ∧ k ∉ xs.take n) := by
  have half {us vs : List κ} (once : us.Nodup) (same : ∀ n k, k ∈ us.take n ↔ k ∈ vs.take n) {i : Nat}
      {k : κ} (h : us[i]? = some k) : vs[i]? = some k := by
    have inside : k ∈ vs.take (i + 1) := by
      rw [← same, List.take_add_one, h]
      simp
    have outside : k ∉ vs.take i := by
      rw [← same, List.mem_take_iff_getElem]
      rintro ⟨j, hj, rfl⟩
      obtain ⟨hi, hk⟩ := List.getElem?_eq_some_iff.mp h
      have := (once.getElem_inj_iff).mp hk
      omega
    rw [List.take_add_one, List.mem_append] at inside
    have last := inside.resolve_left outside
    rwa [Option.mem_toList] at last
  by_contra none
  push Not at none
  have same (n : Nat) (k : κ) : k ∈ xs.take n ↔ k ∈ ys.take n :=
    ⟨(none n k).1, (none n k).2⟩
  refine differ (List.ext_getElem? fun i => ?_)
  cases hx : xs[i]? with
  | some k => rw [half once same hx]
  | none =>
    cases hy : ys[i]? with
    | none => rfl
    | some k => rw [half once' (fun n k => (same n k).symm) hy] at hx; cases hx

theorem lookup_zipIdx (keys : List κ) (k : κ) (start : Nat) :
    (keys.zipIdx start).lookup k = if k ∈ keys then some (start + keys.idxOf k) else none := by
  induction keys generalizing start with
  | nil => rfl
  | cons head rest ih =>
    rw [List.zipIdx_cons, List.lookup_cons, ih]
    by_cases same : k = head
    · simp [same]
    · have apart : (k == head) = false := by simpa using same
      rw [List.idxOf_cons_ne _ (Ne.symm same), apart]
      simp [same, Nat.add_comm, Nat.add_left_comm]

theorem getD_map_idxOf {α : Type*} {keys : List κ} {k : κ} (among : k ∈ keys) (row : κ → α)
    (fallback : α) : (keys.map row).getD (keys.idxOf k) fallback = row k := by
  have inside := List.idxOf_lt_length_iff.mpr among
  rw [List.getD_eq_getElem _ _ (by simpa using inside), List.getElem_map, List.getElem_idxOf]

theorem map_set_idxOf {α : Type*} {keys : List κ} (nodup : keys.Nodup) {k : κ} (among : k ∈ keys)
    {row row' : κ → α} (others : ∀ k' ∈ keys, k' ≠ k → row' k' = row k') :
    (keys.map row).set (keys.idxOf k) (row' k) = keys.map row' := by
  induction keys with
  | nil => cases among
  | cons head rest ih =>
    have split := List.nodup_cons.mp nodup
    by_cases same : head = k
    · rw [same, List.idxOf_cons_self, List.map_cons, List.set_cons_zero, List.map_cons]
      congr 1
      refine List.map_congr_left fun k' hk' => (others k' (List.mem_cons_of_mem _ hk') ?_).symm
      exact fun back => split.1 (same ▸ back ▸ hk')
    · have inRest := (List.mem_cons.mp among).resolve_left (Ne.symm same)
      rw [List.idxOf_cons_ne _ same, List.map_cons, List.set_cons_succ, List.map_cons,
        ih split.2 inRest fun k' hk' => others k' (List.mem_cons_of_mem _ hk'),
        others head (List.mem_cons_self ..) same]

end FirstSeen
