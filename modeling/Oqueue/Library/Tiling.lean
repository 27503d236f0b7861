import Mathlib

/-!
# Runs of intervals that tile a range

`Tiles lo hi items a b` says that the half-open intervals `[lo x, hi x)` of a
list, none of them empty, follow one another from `a` to `b` with no gap and no
overlap. Everything below is about arbitrary items with two natural endpoints.
-/

namespace Tiling

universe u
variable {α : Type u} {lo hi : α → Nat}

def Tiles (lo hi : α → Nat) : List α → Nat → Nat → Prop
  | [], a, b => a = b
  | x :: xs, a, b => lo x = a ∧ a < hi x ∧ Tiles lo hi xs (hi x) b

@[simp] theorem tiles_nil {a b : Nat} : Tiles lo hi [] a b ↔ a = b := Iff.rfl

@[simp] theorem tiles_cons {x : α} {xs : List α} {a b : Nat} :
    Tiles lo hi (x :: xs) a b ↔ lo x = a ∧ a < hi x ∧ Tiles lo hi xs (hi x) b := Iff.rfl

namespace Tiles

theorem le {xs : List α} {a b : Nat} (h : Tiles lo hi xs a b) : a ≤ b := by
  induction xs generalizing a with
  | nil => exact le_of_eq h
  | cons x xs ih =>
    have := ih h.2.2
    have := h.2.1
    omega

theorem eq_nil {xs : List α} {a : Nat} (h : Tiles lo hi xs a a) : xs = [] := by
  cases xs with
  | nil => rfl
  | cons x xs =>
    have := h.2.2.le
    have := h.2.1
    omega

theorem append_iff {xs ys : List α} {a b : Nat} :
    Tiles lo hi (xs ++ ys) a b ↔ ∃ m, Tiles lo hi xs a m ∧ Tiles lo hi ys m b := by
  induction xs generalizing a with
  | nil => simp
  | cons x xs ih =>
    simp only [List.cons_append, tiles_cons, ih]
    constructor
    · rintro ⟨hx, hlt, m, hxs, hys⟩
      exact ⟨m, ⟨hx, hlt, hxs⟩, hys⟩
    · rintro ⟨m, ⟨hx, hlt, hxs⟩, hys⟩
      exact ⟨hx, hlt, m, hxs, hys⟩

theorem append {xs ys : List α} {a m b : Nat} (h : Tiles lo hi xs a m) (h' : Tiles lo hi ys m b) :
    Tiles lo hi (xs ++ ys) a b := append_iff.mpr ⟨m, h, h'⟩

theorem singleton {x : α} (h : lo x < hi x) : Tiles lo hi [x] (lo x) (hi x) := ⟨rfl, h, rfl⟩

theorem start_unique {xs : List α} {a a' b b' : Nat} (h : Tiles lo hi xs a b)
    (h' : Tiles lo hi xs a' b') (ne : xs ≠ []) : a = a' := by
  cases xs with
  | nil => exact absurd rfl ne
  | cons x xs => exact h.1.symm.trans h'.1

theorem end_unique {xs : List α} {a b b' : Nat} (h : Tiles lo hi xs a b)
    (h' : Tiles lo hi xs a b') : b = b' := by
  induction xs generalizing a with
  | nil => exact h.symm.trans h'
  | cons x xs ih => exact ih h.2.2 h'.2.2

theorem bounds {xs : List α} {a b : Nat} (h : Tiles lo hi xs a b) {x : α} (hx : x ∈ xs) :
    a ≤ lo x ∧ lo x < hi x ∧ hi x ≤ b := by
  induction xs generalizing a with
  | nil => simp at hx
  | cons y ys ih =>
    have hy := h.1
    have hlt := h.2.1
    have rest := h.2.2.le
    rcases List.mem_cons.mp hx with rfl | hmem
    · omega
    · have := ih h.2.2 hmem
      omega

theorem pairwise {xs : List α} {a b : Nat} (h : Tiles lo hi xs a b) :
    xs.Pairwise (fun x y => hi x ≤ lo y) := by
  induction xs generalizing a with
  | nil => exact .nil
  | cons x xs ih =>
    refine .cons ?_ (ih h.2.2)
    intro y hy
    exact (h.2.2.bounds hy).1

theorem pairwise_lo {xs : List α} {a b : Nat} (h : Tiles lo hi xs a b) :
    xs.Pairwise (fun x y => lo x < lo y) := by
  refine h.pairwise.imp_of_mem ?_
  intro x y hx _ hxy
  have := (h.bounds hx).2.1
  omega

theorem map_iff {β : Type*} {f : β → α} {xs : List β} {a b : Nat} :
    Tiles lo hi (xs.map f) a b ↔ Tiles (lo ∘ f) (hi ∘ f) xs a b := by
  induction xs generalizing a with
  | nil => exact Iff.rfl
  | cons x xs ih => simp only [List.map_cons, tiles_cons, ih, Function.comp_apply]

theorem isChain {xs : List α} {a b : Nat} (h : Tiles lo hi xs a b) :
    xs.IsChain (fun x y => lo y = hi x) := by
  induction xs generalizing a with
  | nil => exact .nil
  | cons x xs ih =>
    cases xs with
    | nil => exact .singleton x
    | cons y ys => exact .cons_cons h.2.2.1 (ih h.2.2)

theorem getLast_hi {xs : List α} {a b : Nat} (h : Tiles lo hi xs a b) {x : α}
    (last : xs.getLast? = some x) : hi x = b := by
  obtain ⟨front, rfl⟩ := List.getLast?_eq_some_iff.mp last
  obtain ⟨m, -, hx⟩ := append_iff.mp h
  exact hx.2.2

theorem head_lo {xs : List α} {a b : Nat} (h : Tiles lo hi xs a b) {x : α}
    (first : xs.head? = some x) : lo x = a := by
  obtain ⟨rest, rfl⟩ := List.head?_eq_some_iff.mp first
  exact h.1

theorem nodup {xs : List α} {a b : Nat} (h : Tiles lo hi xs a b) : xs.Nodup :=
  h.pairwise_lo.imp (fun hlt heq => by subst heq; exact lt_irrefl _ hlt)

theorem eq_of_lo {xs : List α} {a b : Nat} (h : Tiles lo hi xs a b) {x y : α}
    (hx : x ∈ xs) (hy : y ∈ xs) (hlo : lo x = lo y) : x = y := by
  induction xs generalizing a with
  | nil => simp at hx
  | cons z zs ih =>
    have hz := h.1
    have hlt := h.2.1
    rcases List.mem_cons.mp hx with rfl | inX <;> rcases List.mem_cons.mp hy with rfl | inY
    · rfl
    · have := h.2.2.bounds inY
      omega
    · have := h.2.2.bounds inX
      omega
    · exact ih h.2.2 inX inY

theorem cover {xs : List α} {a b : Nat} (h : Tiles lo hi xs a b) (o : Nat) :
    (a ≤ o ∧ o < b) ↔ ∃ x ∈ xs, lo x ≤ o ∧ o < hi x := by
  constructor
  · induction xs generalizing a with
    | nil =>
      intro ho
      have : a = b := h
      omega
    | cons x xs ih =>
      rintro ⟨hao, hob⟩
      by_cases inside : o < hi x
      · exact ⟨x, by simp, by have := h.1; omega, inside⟩
      · obtain ⟨y, hy, hoy⟩ := ih h.2.2 ⟨by omega, hob⟩
        exact ⟨y, List.mem_cons_of_mem _ hy, hoy⟩
  · rintro ⟨x, hx, hlo, hhi⟩
    have := h.bounds hx
    omega

theorem end_le {xs : List α} {a b cut : Nat} (h : Tiles lo hi xs a b) (start : a ≤ cut)
    (below : ∀ x ∈ xs, hi x ≤ cut) : b ≤ cut := by
  induction xs generalizing a with
  | nil => exact h ▸ start
  | cons x xs ih =>
    exact ih h.2.2 (below x (List.mem_cons_self ..)) fun y hy => below y (List.mem_cons_of_mem _ hy)

/-- Of the tiles that start at or below a cut, all but the last end there. -/
theorem hi_le_of_mem_take {xs : List α} {a b cut : Nat} (h : Tiles lo hi xs a b) {x : α}
    (hx : x ∈ xs.take ((xs.takeWhile fun y => lo y ≤ cut).length - 1)) : hi x ≤ cut := by
  induction xs generalizing a with
  | nil => simp at hx
  | cons y ys ih =>
    by_cases begins : lo y ≤ cut
    · rw [List.takeWhile_cons_of_pos (by simpa using begins), List.length_cons,
        Nat.add_sub_cancel] at hx
      cases htaken : ys.takeWhile (fun y => lo y ≤ cut) with
      | nil =>
        rw [htaken] at hx
        simp at hx
      | cons z zs =>
        have next : z ∈ ys ∧ lo z ≤ cut := by
          have hz : z ∈ ys.takeWhile (fun y => lo y ≤ cut) := by simp [htaken]
          exact ⟨List.takeWhile_subset _ hz, by simpa using List.mem_takeWhile_imp hz⟩
        have counted := congrArg List.length htaken
        rw [List.length_cons] at counted
        rw [counted, List.take_succ_cons] at hx
        rcases List.mem_cons.mp hx with rfl | hx
        · have := (h.2.2.bounds next.1).1
          omega
        · refine ih h.2.2 ?_
          rwa [counted, Nat.add_sub_cancel]
    · rw [List.takeWhile_cons_of_neg (by simpa using begins)] at hx
      simp at hx

/-- Dropping the tiles that end at or below a cut leaves a suffix. -/
theorem filter_above [DecidableEq α] {xs : List α} {a b : Nat} (h : Tiles lo hi xs a b) (cut : Nat) :
    ∃ dropped, xs = dropped ++ xs.filter (fun x => decide (cut < hi x)) ∧
      ∀ x ∈ dropped, hi x ≤ cut := by
  induction xs generalizing a with
  | nil => exact ⟨[], by simp, by simp⟩
  | cons x xs ih =>
    by_cases above : cut < hi x
    · have keepAll : ∀ y ∈ xs, cut < hi y := by
        intro y hy
        have := h.2.2.bounds hy
        omega
      refine ⟨[], ?_, by simp⟩
      rw [List.nil_append, List.filter_eq_self.mpr]
      intro y hy
      rcases List.mem_cons.mp hy with rfl | hmem
      · simpa using above
      · simpa using keepAll y hmem
    · obtain ⟨dropped, heq, hdropped⟩ := ih h.2.2
      refine ⟨x :: dropped, ?_, ?_⟩
      · rw [List.filter_cons_of_neg (by simpa using above), List.cons_append, ← heq]
      · intro y hy
        rcases List.mem_cons.mp hy with rfl | hmem
        · omega
        · exact hdropped y hmem

theorem prefix_of_subset {xs ys : List α} {a b d : Nat} (h : Tiles lo hi xs a b)
    (h' : Tiles lo hi ys a d) (sub : ∀ y ∈ ys, y ∈ xs) : ∃ rest, xs = ys ++ rest := by
  induction ys generalizing xs a with
  | nil => exact ⟨xs, rfl⟩
  | cons y ys ih =>
    cases xs with
    | nil => exact absurd (sub y (by simp)) (by simp)
    | cons x xs =>
      have same : y = x := h.eq_of_lo (sub y (by simp)) (by simp) (h'.1.trans h.1.symm)
      subst same
      have tailSub : ∀ z ∈ ys, z ∈ xs := by
        intro z hz
        rcases List.mem_cons.mp (sub z (List.mem_cons_of_mem _ hz)) with rfl | hmem
        · have := (h'.2.2.bounds hz)
          omega
        · exact hmem
      obtain ⟨rest, rfl⟩ := ih h.2.2 h'.2.2 tailSub
      exact ⟨rest, rfl⟩

theorem block_of_subset {xs ys : List α} {a b c d : Nat} (h : Tiles lo hi xs a b)
    (h' : Tiles lo hi ys c d) (ne : ys ≠ []) (sub : ∀ y ∈ ys, y ∈ xs) :
    ∃ before after, xs = before ++ ys ++ after := by
  cases ys with
  | nil => exact absurd rfl ne
  | cons y ys =>
    obtain ⟨before, rest, rfl⟩ := List.append_of_mem (sub y (by simp))
    obtain ⟨m, hbefore, hrest⟩ := append_iff.mp h
    have start : m = c := hrest.1.symm.trans h'.1
    subst start
    have restSub : ∀ z ∈ y :: ys, z ∈ y :: rest := by
      intro z hz
      rcases List.mem_append.mp (sub z hz) with hmem | hmem
      · have := hbefore.bounds hmem
        have := h'.bounds hz
        omega
      · exact hmem
    obtain ⟨after, heq⟩ := hrest.prefix_of_subset h' restSub
    exact ⟨before, after, by rw [heq, List.append_assoc]⟩

theorem block {xs : List α} {a b : Nat} (h : Tiles lo hi xs a b) {x y : α} (hx : x ∈ xs)
    (hy : y ∈ xs) (lt : lo x < hi y) :
    ∃ before middle after, xs = before ++ middle ++ after ∧ Tiles lo hi middle (lo x) (hi y) := by
  obtain ⟨before, rest, rfl⟩ := List.append_of_mem hx
  obtain ⟨m, hbefore, hrest⟩ := append_iff.mp h
  have start : lo x = m := hrest.1
  have later : y ∈ x :: rest := by
    rcases List.mem_append.mp hy with hmem | hmem
    · have := (hbefore.bounds hmem).2.2
      omega
    · exact hmem
  obtain ⟨front, after, hsplit⟩ := List.append_of_mem later
  rw [hsplit] at hrest
  obtain ⟨n, hfront, hafter⟩ := append_iff.mp hrest
  refine ⟨before, front ++ [y], after, by rw [hsplit]; simp, ?_⟩
  rw [start]
  exact hfront.append ⟨hafter.1, hafter.2.1, rfl⟩

/-- What lies inside a block's range is in the block. -/
theorem mem_block {before middle after : List α} {a b c d : Nat}
    (h : Tiles lo hi (before ++ middle ++ after) a b) (hmiddle : Tiles lo hi middle c d)
    (ne : middle ≠ []) {x : α} (hx : x ∈ before ++ middle ++ after) :
    x ∈ middle ↔ c ≤ lo x ∧ hi x ≤ d := by
  obtain ⟨n, hleft, hafter⟩ := append_iff.mp h
  obtain ⟨m, hbefore, hblock⟩ := append_iff.mp hleft
  obtain rfl : m = c := hblock.start_unique hmiddle ne
  obtain rfl : n = d := hblock.end_unique hmiddle
  constructor
  · intro inside
    have := hblock.bounds inside
    omega
  · rintro ⟨low, high⟩
    rcases List.mem_append.mp hx with hx | hx
    · rcases List.mem_append.mp hx with hx | hx
      · have := hbefore.bounds hx
        omega
      · exact hx
    · have := hafter.bounds hx
      omega

/-- A block is what meets its range. -/
theorem filter_block {before middle after : List α} {a b c d : Nat}
    (h : Tiles lo hi (before ++ middle ++ after) a b) (hmiddle : Tiles lo hi middle c d)
    (ne : middle ≠ []) :
    (before ++ middle ++ after).filter (fun x => decide (c < hi x) && decide (lo x < d)) = middle := by
  obtain ⟨n, hleft, hafter⟩ := append_iff.mp h
  obtain ⟨m, hbefore, hblock⟩ := append_iff.mp hleft
  obtain rfl : m = c := hblock.start_unique hmiddle ne
  obtain rfl : n = d := hblock.end_unique hmiddle
  have low : before.filter (fun x => decide (m < hi x) && decide (lo x < n)) = [] := by
    rw [List.filter_eq_nil_iff]
    intro x hx
    have := (hbefore.bounds hx).2.2
    simp only [Bool.and_eq_true, decide_eq_true_eq]
    omega
  have high : after.filter (fun x => decide (m < hi x) && decide (lo x < n)) = [] := by
    rw [List.filter_eq_nil_iff]
    intro x hx
    have := (hafter.bounds hx).1
    simp only [Bool.and_eq_true, decide_eq_true_eq]
    omega
  have kept : middle.filter (fun x => decide (m < hi x) && decide (lo x < n)) = middle := by
    rw [List.filter_eq_self]
    intro x hx
    have := hblock.bounds hx
    simp only [Bool.and_eq_true, decide_eq_true_eq]
    omega
  rw [List.filter_append, List.filter_append, low, high, kept, List.nil_append, List.append_nil]

theorem eq_of_subset {xs ys : List α} {a b : Nat} (h : Tiles lo hi xs a b)
    (h' : Tiles lo hi ys a b) (sub : ∀ y ∈ ys, y ∈ xs) : ys = xs := by
  obtain ⟨rest, rfl⟩ := h.prefix_of_subset h' sub
  obtain ⟨m, hys, hrest⟩ := append_iff.mp h
  obtain rfl : m = b := hys.end_unique h'
  rw [hrest.eq_nil, List.append_nil]

theorem sum_width {xs : List α} {a b : Nat} (h : Tiles lo hi xs a b) :
    a + (xs.map fun x => hi x - lo x).sum = b := by
  induction xs generalizing a with
  | nil => exact h
  | cons x xs ih =>
    have rest := ih h.2.2
    have start := h.1
    have width := h.2.1
    rw [List.map_cons, List.sum_cons]
    omega

theorem sort_eq {xs ys : List α} {a b : Nat} (h : Tiles lo hi xs a b) (perm : ys.Perm xs) :
    ys.insertionSort (fun x y => lo x ≤ lo y) = xs := by
  have total : Std.Total (fun x y : α => lo x ≤ lo y) := ⟨fun x y => Nat.le_total _ _⟩
  have trans : IsTrans α (fun x y => lo x ≤ lo y) := ⟨fun _ _ _ => Nat.le_trans⟩
  have sorted := List.pairwise_insertionSort (fun x y : α => lo x ≤ lo y) ys
  have same := (List.perm_insertionSort (fun x y : α => lo x ≤ lo y) ys).trans perm
  refine same.eq_of_pairwise ?_ sorted (h.pairwise_lo.imp Nat.le_of_lt)
  intro x y hx hy hxy hyx
  exact h.eq_of_lo (same.subset hx) hy (Nat.le_antisymm hxy hyx)

end Tiles

/-- How many of the intervals a point lies in. -/
def coverage (lo hi : α → Nat) (xs : List α) (o : Nat) : Nat :=
  xs.countP fun x => decide (lo x ≤ o ∧ o < hi x)

@[simp] theorem coverage_pos {xs : List α} {o : Nat} :
    0 < coverage lo hi xs o ↔ ∃ x ∈ xs, lo x ≤ o ∧ o < hi x := by
  simp [coverage, List.countP_pos_iff]

theorem coverage_perm {xs ys : List α} (perm : xs.Perm ys) (o : Nat) :
    coverage lo hi xs o = coverage lo hi ys o := perm.countP_eq _

/-- Intervals that cover one stretch of points, each of them once. -/
structure Seamless (lo hi : α → Nat) (xs : List α) : Prop where
  wide : ∀ x ∈ xs, lo x < hi x
  once : ∀ o, coverage lo hi xs o ≤ 1
  gapless : ∀ low o high, low ≤ o → o ≤ high → 0 < coverage lo hi xs low →
    0 < coverage lo hi xs high → 0 < coverage lo hi xs o

theorem Seamless.perm {xs ys : List α} (seamless : Seamless lo hi xs) (perm : xs.Perm ys) :
    Seamless lo hi ys := by
  refine ⟨fun x hx => seamless.wide x (perm.symm.subset hx), fun o => ?_, ?_⟩
  · rw [← coverage_perm perm]
    exact seamless.once o
  · intro low o high
    rw [← coverage_perm perm, ← coverage_perm perm, ← coverage_perm perm]
    exact seamless.gapless low o high

/-- A tiling covers each point of its range once. -/
theorem Tiles.seamless {xs : List α} {a b : Nat} (h : Tiles lo hi xs a b) : Seamless lo hi xs := by
  have points (o : Nat) : 0 < coverage lo hi xs o ↔ a ≤ o ∧ o < b := by
    rw [coverage_pos]
    exact (h.cover o).symm
  refine ⟨fun x hx => (h.bounds hx).2.1, ?_, ?_⟩
  · clear points
    induction xs generalizing a with
    | nil => exact fun _ => Nat.zero_le _
    | cons x xs ih =>
      intro o
      have rest := ih h.2.2 o
      unfold coverage at rest ⊢
      rw [List.countP_cons]
      by_cases here : lo x ≤ o ∧ o < hi x
      · have none : xs.countP (fun y => decide (lo y ≤ o ∧ o < hi y)) = 0 := by
          rw [List.countP_eq_zero]
          intro y hy inside
          have := (h.2.2.bounds hy).1
          have := (of_decide_eq_true inside).1
          omega
        rw [none]
        simp [here]
      · simpa [here] using rest
  · intro low o high lower upper hlow hhigh
    have := (points low).mp hlow
    have := (points high).mp hhigh
    exact (points o).mpr (by omega)

/-- Intervals in order that cover one stretch, each point once, tile it. -/
theorem Seamless.tiles {x : α} {xs : List α} (seamless : Seamless lo hi (x :: xs))
    (sorted : (x :: xs).Pairwise fun x y => lo x ≤ lo y) : ∃ b, Tiles lo hi (x :: xs) (lo x) b := by
  induction xs generalizing x with
  | nil => exact ⟨hi x, rfl, seamless.wide x (List.mem_cons_self ..), rfl⟩
  | cons y rest ih =>
    have wide := seamless.wide x (List.mem_cons_self ..)
    have wideNext := seamless.wide y (by simp)
    obtain ⟨first, later⟩ := List.pairwise_cons.mp sorted
    have above : ∀ z ∈ y :: rest, lo y ≤ lo z := by
      intro z hz
      rcases List.mem_cons.mp hz with rfl | hz
      · exact Nat.le_refl _
      · exact (List.pairwise_cons.mp later).1 z hz
    have cons (o : Nat) : coverage lo hi (x :: y :: rest) o =
        coverage lo hi (y :: rest) o + if lo x ≤ o ∧ o < hi x then 1 else 0 := by
      unfold coverage
      rw [List.countP_cons]
      simp
    -- An overlap is covered twice; a gap is covered by nothing.
    have meets : lo y = hi x := by
      rcases Nat.lt_trichotomy (lo y) (hi x) with overlap | same | gap
      · exfalso
        have twice := seamless.once (lo y)
        have mine : 0 < coverage lo hi (y :: rest) (lo y) :=
          coverage_pos.mpr ⟨y, List.mem_cons_self .., Nat.le_refl _, wideNext⟩
        rw [cons, if_pos ⟨first y (List.mem_cons_self ..), overlap⟩] at twice
        omega
      · exact same
      · exfalso
        have filled := seamless.gapless (lo x) (hi x) (lo y) (Nat.le_of_lt wide) (Nat.le_of_lt gap)
          (coverage_pos.mpr ⟨x, List.mem_cons_self .., Nat.le_refl _, wide⟩)
          (coverage_pos.mpr ⟨y, by simp, Nat.le_refl _, wideNext⟩)
        obtain ⟨z, hz, low, high⟩ := coverage_pos.mp filled
        rcases List.mem_cons.mp hz with rfl | hz
        · exact Nat.lt_irrefl _ high
        · have := above z hz
          omega
    have tail : Seamless lo hi (y :: rest) := by
      refine ⟨fun z hz => seamless.wide z (List.mem_cons_of_mem _ hz), fun o => ?_, ?_⟩
      · have := seamless.once o
        rw [cons] at this
        omega
      · intro low o high lower upper hlow hhigh
        have filled := seamless.gapless low o high lower upper (by rw [cons]; omega)
          (by rw [cons]; omega)
        obtain ⟨z, hz, begins, -⟩ := coverage_pos.mp hlow
        have := above z hz
        rwa [cons, if_neg (by omega), Nat.add_zero] at filled
    obtain ⟨b, tiles⟩ := ih tail later
    rw [meets] at tiles
    exact ⟨b, rfl, wide, tiles⟩

end Tiling
