import Oqueue.Library.Checked
import Oqueue.Library.Tiling

/-!
# Walks over pages

A sequence is read a page at a time, each page from where the last one ended. A
walk visits every item of a page until one lies past its range; it ends with an
empty page, or one that does not advance. Over items that tile a range, the pages
do not show: the walk visits the items in the range, and may visit the next one.
-/

namespace Paged

open Checked Tiling

universe u
variable {ε σ α : Type u}

/-- Visits a page's items until one lies past the range; how far the others reach. -/
def visitPage (visit : σ → α → Except ε (σ × Option Nat)) :
    List α → σ → Nat → Except ε (σ × Nat)
  | [], s, furthest => .ok (s, furthest)
  | x :: xs, s, furthest => do
    match ← visit s x with
    | (s, none) => return (s, furthest)
    | (s, some stop) => visitPage visit xs s (max furthest stop)

/-- The walk from a cursor up to `stop`. Every page that does not end it moves the
cursor, so a walk of `stop - cursor` pages is a whole one. -/
def walk (page : Nat → Except ε (List α)) (visit : σ → α → Except ε (σ × Option Nat)) (stop : Nat) :
    Nat → Nat → σ → Except ε σ
  | 0, _, s => .ok s
  | fuel + 1, cursor, s =>
    if cursor < stop then do
      let items ← page cursor
      if items.isEmpty then return s
      let (s, furthest) ← visitPage visit items s cursor
      if furthest ≤ cursor then return s else walk page visit stop fuel furthest s
    else .ok s

variable {lo hi : α → Nat} {page : Nat → Except ε (List α)}
  {visit : σ → α → Except ε (σ × Option Nat)} {f : σ → α → σ} {P : σ → Prop} {stop : Nat}

/-- What visiting an item does to a walk that keeps its shape. -/
def Visits (P : σ → Prop) (lo hi : α → Nat) (visit : σ → α → Except ε (σ × Option Nat))
    (f : σ → α → σ) (stop : Nat) (items : List α) : Prop :=
  ∀ s, P s → ∀ x ∈ items, P (f s x) ∧
    visit s x = .ok (f s x, if lo x < stop then some (hi x) else none)

def from_ (hi : α → Nat) (items : List α) (cursor : Nat) : List α :=
  items.filter fun x => decide (cursor < hi x)

/-- What a walk sees of the items ahead of it: those that begin in the range, and
perhaps the one after them. -/
structure Sees (lo : α → Nat) (stop : Nat) (ahead inside past rest : List α) : Prop where
  split : ahead = inside ++ past ++ rest
  within : ∀ x ∈ inside, lo x < stop
  beyond : ∀ x ∈ past ++ rest, stop ≤ lo x
  atMostOne : past.length ≤ 1

theorem Sees.mem_inside {ahead inside past rest : List α} (sees : Sees lo stop ahead inside past rest)
    {x : α} (hx : x ∈ ahead) (begins : lo x < stop) : x ∈ inside := by
  rw [sees.split, List.append_assoc] at hx
  rcases List.mem_append.mp hx with hx | hx
  · exact hx
  · exact absurd begins (Nat.not_lt.mpr (sees.beyond x hx))

theorem Sees.inside_eq {ahead inside past rest : List α} (sees : Sees lo stop ahead inside past rest) :
    inside = ahead.filter fun x => decide (lo x < stop) := by
  have kept : inside.filter (fun x => decide (lo x < stop)) = inside :=
    List.filter_eq_self.mpr fun x hx => decide_eq_true (sees.within x hx)
  have dropped : (past ++ rest).filter (fun x => decide (lo x < stop)) = [] := by
    rw [List.filter_eq_nil_iff]
    intro x hx
    have := sees.beyond x hx
    simpa using this
  rw [sees.split, List.append_assoc, List.filter_append, kept, dropped, List.append_nil]

theorem from_append {items inside rest : List α} {cursor middle a b : Nat}
    (ahead : from_ hi items cursor = inside ++ rest) (tiles : Tiles lo hi inside a middle)
    (after : Tiles lo hi rest middle b) (moves : cursor ≤ middle) : from_ hi items middle = rest := by
  have again : from_ hi items middle = (from_ hi items cursor).filter
      fun x => decide (middle < hi x) := by
    unfold from_
    rw [List.filter_filter]
    refine List.filter_congr fun x _ => ?_
    rw [← Bool.decide_and, decide_eq_decide]
    omega
  have dropped : inside.filter (fun x => decide (middle < hi x)) = [] := by
    rw [List.filter_eq_nil_iff]
    intro x hx
    have := (tiles.bounds hx).2.2
    simpa using this
  have kept : rest.filter (fun x => decide (middle < hi x)) = rest := by
    rw [List.filter_eq_self]
    intro x hx
    have := after.bounds hx
    simp only [decide_eq_true_eq]
    omega
  rw [again, ahead, List.filter_append, dropped, kept, List.nil_append]

/-- One page of tiles: those that begin in the range are visited, and the first that
does not. -/
theorem visitPage_eq {items : List α} {a b : Nat} (tiles : Tiles lo hi items a b)
    (visits : Visits P lo hi visit f stop items) {s : σ} (hs : P s) (furthest : Nat) :
    ∃ inside past rest middle, Sees lo stop items inside past rest ∧ Tiles lo hi inside a middle ∧
      (past = [] → rest = []) ∧ P ((inside ++ past).foldl f s) ∧ visitPage visit items s furthest =
        .ok ((inside ++ past).foldl f s, if inside = [] then furthest else max furthest middle) := by
  induction items generalizing a s furthest with
  | nil => exact ⟨[], [], [], a, ⟨rfl, by simp, by simp, by simp⟩, rfl, fun _ => rfl, hs, rfl⟩
  | cons x xs ih =>
    obtain ⟨kept, hvisits⟩ := visits s hs x (List.mem_cons_self ..)
    unfold visitPage
    rw [hvisits, bind_ok]
    by_cases begins : lo x < stop
    · have later : Visits P lo hi visit f stop xs :=
        fun s hs y hy => visits s hs y (List.mem_cons_of_mem _ hy)
      obtain ⟨inside, past, rest, middle, sees, htiles, whole, keeps, hvisit⟩ :=
        ih tiles.2.2 later kept (max furthest (hi x))
      refine ⟨x :: inside, past, rest, middle, ⟨?_, ?_, sees.beyond, sees.atMostOne⟩,
        ⟨tiles.1, tiles.2.1, htiles⟩, whole, keeps, ?_⟩
      · rw [sees.split]
        rfl
      · intro y hy
        rcases List.mem_cons.mp hy with rfl | hy
        · exact begins
        · exact sees.within y hy
      · rw [if_pos begins]
        dsimp only
        rw [hvisit, if_neg (List.cons_ne_nil _ _)]
        congr 2
        split
        · rename_i none
          subst none
          have ends : hi x = middle := htiles
          rw [ends]
        · have := htiles.le
          omega
    · refine ⟨[], [x], xs, a, ⟨rfl, by simp, ?_, by simp⟩, rfl, by simp, kept, ?_⟩
      · intro y hy
        rcases List.mem_cons.mp hy with rfl | hy
        · omega
        · have := (tiles.2.2.bounds hy).1
          have := tiles.1
          have := tiles.2.1
          omega
      · rw [if_neg begins]
        rfl

/-- Pages that name what is ahead, in order and without a hole, at least one item of
it when there is one. -/
def Pages (hi : α → Nat) (items : List α) (floor : Nat) (page : Nat → Except ε (List α)) : Prop :=
  ∀ cursor, floor ≤ cursor → ∃ batch rest, page cursor = .ok batch ∧
    from_ hi items cursor = batch ++ rest ∧ (from_ hi items cursor ≠ [] → batch ≠ [])

theorem walk_over {fuel cursor : Nat} (ends : stop ≤ cursor) (s : σ) :
    walk page visit stop fuel cursor s = .ok s := by
  cases fuel with
  | zero => rfl
  | succ fuel => exact if_neg (by omega)

theorem walk_page {batch : List α} {fuel cursor furthest : Nat} {s s' : σ} (more : cursor < stop)
    (hpage : page cursor = .ok batch) (some : batch ≠ [])
    (hvisit : visitPage visit batch s cursor = .ok (s', furthest)) :
    walk page visit stop (fuel + 1) cursor s =
      if furthest ≤ cursor then .ok s' else walk page visit stop fuel furthest s' := by
  have shown : batch.isEmpty = false := by simpa using some
  conv_lhs => unfold walk
  rw [if_pos more, hpage, bind_ok, shown, hvisit, if_neg Bool.false_ne_true]
  rfl

theorem Sees.extend {ahead inside past rest later : List α} (sees : Sees lo stop ahead inside past rest)
    (beyond : ∀ x ∈ later, stop ≤ lo x) : Sees lo stop (ahead ++ later) inside past (rest ++ later) where
  split := by rw [sees.split, List.append_assoc]
  within := sees.within
  beyond := by
    intro x hx
    rw [← List.append_assoc] at hx
    exact (List.mem_append.mp hx).elim (sees.beyond x) (beyond x)
  atMostOne := sees.atMostOne

/-- The pages do not show in what a walk visits. -/
theorem walk_eq {items : List α} {a b floor : Nat} (tiles : Tiles lo hi items a b)
    (pages : Pages hi items floor page) (visits : Visits P lo hi visit f stop items)
    {fuel cursor : Nat} (started : floor ≤ cursor) (enough : stop - cursor ≤ fuel)
    (ended : stop ≤ cursor → ∀ x ∈ from_ hi items cursor, stop ≤ lo x) {s : σ} (hs : P s) :
    ∃ inside past rest, Sees lo stop (from_ hi items cursor) inside past rest ∧
      walk page visit stop fuel cursor s = .ok ((inside ++ past).foldl f s) := by
  classical
  induction fuel generalizing cursor s with
  | zero =>
    exact ⟨[], [], _, ⟨rfl, by simp, ended (by omega), by simp⟩, rfl⟩
  | succ fuel ih =>
    by_cases more : cursor < stop
    · obtain ⟨dropped, hsplit, -⟩ := tiles.filter_above cursor
      obtain ⟨low, -, hahead⟩ := Tiles.append_iff.mp (hsplit ▸ tiles)
      obtain ⟨batch, later, hpage, hbatch, nonempty⟩ := pages cursor started
      change Tiles lo hi (from_ hi items cursor) low b at hahead
      by_cases none : batch = []
      · subst none
        have nothing : from_ hi items cursor = [] := by
          by_contra h
          exact nonempty h rfl
        refine ⟨[], [], [], ⟨by simpa using nothing, by simp, by simp, by simp⟩, ?_⟩
        unfold walk
        rw [if_pos more, hpage]
        rfl
      · obtain ⟨m, htiles, hlater⟩ := Tiles.append_iff.mp (hbatch ▸ hahead)
        have among : ∀ x ∈ batch, x ∈ items := fun x hx =>
          List.mem_of_mem_filter (show x ∈ from_ hi items cursor from
            hbatch ▸ List.mem_append_left _ hx)
        obtain ⟨inside, past, rest, middle, sees, hinside, whole, keeps, hvisit⟩ :=
          visitPage_eq htiles (fun s hs x hx => visits s hs x (among x hx)) hs cursor
        rw [walk_page more hpage none hvisit]
        by_cases stopped : past = []
        · -- The whole page begins in the range, and the walk goes on from its end.
          have nothing := whole stopped
          subst stopped nothing
          have all : batch = inside := by simpa using sees.split
          subst all
          obtain rfl : middle = m := hinside.end_unique htiles
          obtain ⟨first, hfirst⟩ := List.exists_mem_of_ne_nil _ none
          have reaches : cursor < middle := by
            have seen : first ∈ from_ hi items cursor := hbatch ▸ List.mem_append_left _ hfirst
            have := (htiles.bounds hfirst).2.2
            have : cursor < hi first := by simpa [from_] using (List.mem_filter.mp seen).2
            omega
          have next := from_append hbatch htiles hlater reaches.le
          have ended' : stop ≤ middle → ∀ x ∈ from_ hi items middle, stop ≤ lo x := by
            intro ends x hx
            have := (hlater.bounds (next ▸ hx)).1
            omega
          obtain ⟨inside', past', rest', sees', hwalk⟩ :=
            @ih middle (by omega) (by omega) ended' _ keeps
          refine ⟨batch ++ inside', past', rest', ⟨?_, ?_, sees'.beyond, sees'.atMostOne⟩, ?_⟩
          · rw [hbatch, ← next, sees'.split]
            simp only [List.append_assoc]
          · intro x hx
            exact (List.mem_append.mp hx).elim (sees.within x) (sees'.within x)
          · rw [if_neg none, Nat.max_eq_right reaches.le, if_neg (Nat.not_le.mpr reaches), hwalk]
            simp only [List.append_nil, List.foldl_append]
        · -- An item past the range is on the page, so the walk ends with it.
          obtain ⟨p, more', hpast⟩ := List.exists_cons_of_ne_nil stopped
          have inBatch : p ∈ batch := by
            rw [sees.split, hpast]
            simp
          have beyondP : stop ≤ lo p := sees.beyond p (by simp [hpast])
          have laterBeyond : ∀ x ∈ later, stop ≤ lo x := by
            intro x hx
            have := (hlater.bounds hx).1
            have := htiles.bounds inBatch
            omega
          refine ⟨inside, past, rest ++ later, hbatch ▸ sees.extend laterBeyond, ?_⟩
          by_cases empty : inside = []
          · rw [if_pos empty, if_pos (Nat.le_refl _)]
          · rw [if_neg empty]
            have ends : stop ≤ middle := by
              rw [sees.split, hpast, List.append_assoc] at htiles
              obtain ⟨m', hleft, hright⟩ := Tiles.append_iff.mp htiles
              obtain rfl : m' = middle := hleft.end_unique hinside
              exact hright.1 ▸ beyondP
            split
            · rfl
            · exact walk_over (by omega) _
    · refine ⟨[], [], _, ⟨rfl, by simp, ended (by omega), by simp⟩, ?_⟩
      exact walk_over (by omega) s

def resume (hi : α → Nat) (cursor : Nat) (batch : List α) : Nat := batch.getLast?.elim cursor hi

/-- One page after another, each from where the one before it ended: what they named,
and where they got to. -/
def follow (hi : α → Nat) : List (Nat → Except ε (List α)) → Nat → Except ε (List α × Nat)
  | [], cursor => .ok ([], cursor)
  | page :: pages, cursor => do
    let batch ← page cursor
    let (later, stop) ← follow hi pages (resume hi cursor batch)
    return (batch ++ later, stop)

theorem from_tiles [DecidableEq α] {items : List α} {a b cursor : Nat} (tiles : Tiles lo hi items a b)
    (started : a ≤ cursor) (below : cursor < b) :
    ∃ first rest, from_ hi items cursor = first :: rest ∧ lo first ≤ cursor ∧ cursor < hi first ∧
      Tiles lo hi (first :: rest) (lo first) b := by
  obtain ⟨dropped, hsplit, hdropped⟩ := tiles.filter_above cursor
  obtain ⟨low, hbefore, hahead⟩ := Tiles.append_iff.mp (hsplit ▸ tiles)
  change Tiles lo hi (from_ hi items cursor) low b at hahead
  have lowest : low ≤ cursor := hbefore.end_le started hdropped
  cases hfrom : from_ hi items cursor with
  | nil =>
    rw [hfrom] at hahead
    have : low = b := hahead
    omega
  | cons first rest =>
    rw [hfrom] at hahead
    have ahead : first ∈ from_ hi items cursor := hfrom ▸ List.mem_cons_self ..
    have past : cursor < hi first := by simpa [from_] using (List.mem_filter.mp ahead).2
    have begins : lo first = low := hahead.1
    exact ⟨first, rest, rfl, begins ▸ lowest, past, begins ▸ hahead⟩

theorem from_end {items : List α} {a b : Nat} (tiles : Tiles lo hi items a b) :
    from_ hi items b = [] := by
  unfold from_
  rw [List.filter_eq_nil_iff]
  intro x hx
  have := (tiles.bounds hx).2.2
  simpa using this

/-- Reading on from where each page ends names everything ahead, once, and arrives. -/
theorem follow_eq {items : List α} {a b floor : Nat} (tiles : Tiles lo hi items a b)
    {pages : List (Nat → Except ε (List α))} (every : ∀ page ∈ pages, Pages hi items floor page)
    {cursor : Nat} (floored : floor ≤ cursor) (started : a ≤ cursor) (within : cursor ≤ b)
    (enough : b - cursor ≤ pages.length) :
    follow hi pages cursor = .ok (from_ hi items cursor, b) := by
  classical
  induction pages generalizing cursor with
  | nil =>
    rw [List.length_nil] at enough
    obtain rfl : cursor = b := by omega
    rw [from_end tiles]
    rfl
  | cons page pages ih =>
    have others : ∀ page ∈ pages, Pages hi items floor page :=
      fun p hp => every p (List.mem_cons_of_mem _ hp)
    obtain ⟨batch, later, hpage, hbatch, nonempty⟩ := every page (List.mem_cons_self ..) cursor floored
    rw [List.length_cons] at enough
    unfold follow
    rw [hpage, bind_ok]
    rcases Nat.lt_or_ge cursor b with below | arrived
    · obtain ⟨first, rest, hfrom, -, past, hahead⟩ := from_tiles tiles started below
      rw [← hfrom, hbatch] at hahead
      obtain ⟨middle, htiles, hlater⟩ := Tiles.append_iff.mp hahead
      -- The page is not empty, so its end is past the cursor and nothing lies between.
      have held : batch ≠ [] := nonempty (hfrom ▸ List.cons_ne_nil _ _)
      obtain ⟨last, hlast⟩ := Option.isSome_iff_exists.mp (List.getLast?_isSome.mpr held)
      have ends : hi last = middle := htiles.getLast_hi hlast
      have resumed : resume hi cursor batch = middle := by
        unfold resume
        rw [hlast]
        exact ends
      have moves : cursor < middle := by
        have seen : last ∈ from_ hi items cursor :=
          hbatch ▸ List.mem_append_left _ (List.mem_of_getLast? hlast)
        have : cursor < hi last := by simpa [from_] using (List.mem_filter.mp seen).2
        omega
      have next : from_ hi items middle = later := from_append hbatch htiles hlater moves.le
      rw [resumed, ih others (by omega) (by omega) hlater.le (by omega), bind_ok, next, hbatch]
      rfl
    · obtain rfl : cursor = b := by omega
      have nothing : batch = [] := by
        have := from_end tiles
        rw [hbatch] at this
        exact (List.append_eq_nil_iff.mp this).1
      have stays : resume hi cursor batch = cursor := by
        rw [nothing]
        rfl
      rw [stays, ih others floored started within (by omega), bind_ok, nothing]
      rfl

section
variable {ε σ α : Type}

/-- Folds pages of at most `size` items, each from past the last item of the one before; a page
that is shorter is the last. -/
def fold (page : Nat → Except ε (List α)) (number : α → Nat) (after : Nat → Except ε Nat)
    (size : Nat) (step : σ → α → Except ε σ) : Nat → Nat → σ → Except ε σ
  | 0, _, s => .ok s
  | fuel + 1, start, s => do
    let items ← page start
    let s ← items.foldlM step s
    match items.getLast? with
    | none => return s
    | some last =>
      if items.length < size then return s
      else fold page number after size step fuel (← after (number last)) s

theorem foldlM_filter {step : σ → α → Except ε σ} {sees : α → Bool}
    (skips : ∀ s x, sees x = false → step s x = .ok s) (items : List α) (s : σ) :
    items.foldlM step s = (items.filter sees).foldlM step s := by
  induction items generalizing s with
  | nil => rfl
  | cons x items ih =>
    cases seen : sees x with
    | true =>
      rw [List.filter_cons_of_pos seen, List.foldlM_cons, List.foldlM_cons]
      exact congrArg _ (funext ih)
    | false =>
      rw [List.filter_cons_of_neg (by simp [seen]), List.foldlM_cons, skips s x seen, bind_ok, ih]

theorem filter_after {number : α → Nat} {items batch rest : List α} {start : Nat} {last : α}
    (rising : items.Pairwise fun a b => number a < number b)
    (split : items.filter (fun x => decide (start ≤ number x)) = batch ++ rest)
    (ends : batch.getLast? = some last) :
    items.filter (fun x => decide (number last + 1 ≤ number x)) = rest := by
  obtain ⟨front, rfl⟩ := List.getLast?_eq_some_iff.mp ends
  have among : last ∈ items.filter (fun x => decide (start ≤ number x)) := by
    rw [split]
    simp
  have reached : start ≤ number last := of_decide_eq_true (List.mem_filter.mp among).2
  have ordered := rising.sublist (List.filter_sublist (p := fun x => decide (start ≤ number x)))
  rw [split] at ordered
  obtain ⟨within, -, across⟩ := List.pairwise_append.mp ordered
  have before := (List.pairwise_append.mp within).2.2
  have narrowed : items.filter (fun x => decide (number last + 1 ≤ number x)) =
      (items.filter fun x => decide (start ≤ number x)).filter
        fun x => decide (number last + 1 ≤ number x) := by
    rw [List.filter_filter]
    refine List.filter_congr fun x _ => ?_
    rw [← Bool.decide_and, decide_eq_decide]
    omega
  have dropped : (front ++ [last]).filter (fun x => decide (number last + 1 ≤ number x)) = [] := by
    rw [List.filter_eq_nil_iff]
    intro x inside
    rcases List.mem_append.mp inside with early | final
    · have := before x early last (List.mem_singleton_self _)
      simp only [decide_eq_true_eq]
      omega
    · rw [List.mem_singleton.mp final]
      simp
  have kept : rest.filter (fun x => decide (number last + 1 ≤ number x)) = rest := by
    rw [List.filter_eq_self]
    intro x later
    have := across last (by simp) x later
    exact decide_eq_true this
  rw [narrowed, split, List.filter_append, dropped, kept, List.nil_append]

/-- Pages do not show in what they fold to. -/
theorem fold_eq {page : Nat → Except ε (List α)} {number : α → Nat}
    {after : Nat → Except ε Nat} {size : Nat} {items : List α}
    {step : σ → α → Except ε σ} (rising : items.Pairwise fun a b => number a < number b)
    (pages : ∀ start,
      page start = .ok ((items.filter fun x => decide (start ≤ number x)).take size))
    (goes : ∀ x ∈ items, after (number x) = .ok (number x + 1)) (positive : 0 < size)
    {fuel start : Nat} (enough : (items.filter fun x => decide (start ≤ number x)).length < fuel)
    (s : σ) : fold page number after size step fuel start s =
      (items.filter fun x => decide (start ≤ number x)).foldlM step s := by
  induction fuel generalizing start s with
  | zero => exact absurd enough (Nat.not_lt_zero _)
  | succ fuel ih =>
    have split := (List.take_append_drop size
      (items.filter fun x => decide (start ≤ number x))).symm
    unfold fold
    rw [pages, bind_ok]
    conv_rhs => rw [split, List.foldlM_append]
    cases folded : ((items.filter fun x => decide (start ≤ number x)).take size).foldlM step s with
    | error e => rfl
    | ok s' =>
      simp only [bind_ok]
      cases ends : ((items.filter fun x => decide (start ≤ number x)).take size).getLast? with
      | none =>
        have none : (items.filter fun x => decide (start ≤ number x)) = [] := by
          have := List.getLast?_eq_none_iff.mp ends
          rw [List.take_eq_nil_iff] at this
          exact this.resolve_left positive.ne'
        rw [none, List.drop_nil]
        rfl
      | some last =>
        dsimp only
        split
        · rename_i short
          have done : (items.filter fun x => decide (start ≤ number x)).drop size = [] := by
            rw [List.length_take] at short
            exact List.drop_eq_nil_of_le (by omega)
          rw [done]
          rfl
        · rename_i whole
          have among : last ∈ items := List.mem_of_mem_filter
            (List.mem_of_mem_take (List.mem_of_getLast? ends))
          have left := filter_after rising split ends
          rw [goes last among, bind_ok, ih ?_ s', left]
          rw [left, List.length_drop]
          rw [List.length_take] at whole
          omega

end

end Paged
