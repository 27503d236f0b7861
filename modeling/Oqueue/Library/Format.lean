import Oqueue.Library.Reader

/-!
# What a reader accepts and a writer writes

A format relates a value to the bytes it is written as. A reader of a format
accepts, at any position of any input, exactly the values whose bytes stand
there, and moves past them; a writer appends those bytes. The rules follow the
way readers and writers are put together.
-/

namespace Format

open Bytes Reader

variable {ε α β : Type}

/-- The reader accepts a value exactly where its bytes stand. -/
def Reads (read : Read ε α) (F : α → List UInt8 → Prop) : Prop :=
  ∀ cur a cur', read.run cur = .ok (a, cur') ↔ ∃ bytes rest, F a bytes ∧
    cur.buf.drop cur.pos = bytes ++ rest ∧ cur' = { cur with pos := cur.pos + bytes.length }

abbrev Write (ε α : Type) := StateT (List UInt8) (Except ε) α

/-- The writer appends bytes of the format, and refuses exactly when there are none. -/
def Writes (put : Write ε Unit) (W : List UInt8 → Prop) : Prop :=
  ∀ out out', put.run out = .ok ((), out') ↔ ∃ bytes, W bytes ∧ out' = out ++ bytes

section
variable {read : Read ε α} {F F' : α → List UInt8 → Prop}

theorem Reads.congr (h : Reads read F) (same : ∀ a bytes, F a bytes ↔ F' a bytes) :
    Reads read F' := by
  intro cur a cur'
  simp only [h cur a cur', same]

theorem Reads.pure (a : α) : Reads (Pure.pure a : Read ε α) fun b bytes => b = a ∧ bytes = [] := by
  intro cur b cur'
  constructor
  · intro h
    cases h
    exact ⟨[], _, ⟨rfl, rfl⟩, rfl, rfl⟩
  · rintro ⟨_, rest, ⟨rfl, rfl⟩, -, rfl⟩
    rfl

theorem Reads.throw (e : ε) : Reads (MonadExcept.throw e : Read ε α) fun _ _ => False := by
  intro cur b cur'
  constructor
  · intro h
    cases h
  · rintro ⟨_, _, ⟨⟩, -⟩

theorem Reads.bind {f : α → Read ε β} {G : α → β → List UInt8 → Prop} (first : Reads read F)
    (second : ∀ a, Reads (f a) (G a)) :
    Reads (read >>= f) fun b bytes => ∃ a x y, F a x ∧ G a b y ∧ bytes = x ++ y := by
  intro cur b cur'
  rw [Reader.bind_eq_ok]
  constructor
  · rintro ⟨a, mid, hread, hrest⟩
    obtain ⟨x, rest, hx, hdrop, rfl⟩ := (first cur a mid).mp hread
    obtain ⟨y, tail, hy, htail, rfl⟩ := (second a _ b cur').mp hrest
    have after : cur.buf.drop (cur.pos + x.length) = rest := by
      rw [← List.drop_drop, hdrop, List.drop_left]
    refine ⟨x ++ y, tail, ⟨a, x, y, hx, hy, rfl⟩, ?_, ?_⟩
    · rw [hdrop, ← after, htail, List.append_assoc]
    · rw [List.length_append, Nat.add_assoc]
  · rintro ⟨_, tail, ⟨a, x, y, hx, hy, rfl⟩, hdrop, rfl⟩
    rw [List.append_assoc] at hdrop
    refine ⟨a, _, (first cur a _).mpr ⟨x, y ++ tail, hx, hdrop, rfl⟩,
      (second a _ b _).mpr ⟨y, tail, hy, ?_, ?_⟩⟩
    · rw [← List.drop_drop, hdrop, List.drop_left]
    · rw [List.length_append, Nat.add_assoc]

theorem Reads.get_bind {f : Cursor → Read ε α} (h : ∀ cur, Reads (f cur) F) :
    Reads (MonadState.get >>= f) F := by
  intro cur a cur'
  exact h cur cur a cur'

theorem Reads.check {x : Except ε α} :
    Reads (liftM x : Read ε α) fun a bytes => x = .ok a ∧ bytes = [] := by
  intro cur a cur'
  rw [lift_eq_ok]
  constructor
  · rintro ⟨hx, rfl⟩
    exact ⟨[], _, ⟨hx, rfl⟩, rfl, rfl⟩
  · rintro ⟨_, _, ⟨hx, rfl⟩, -, rfl⟩
    exact ⟨hx, rfl⟩

theorem Reads.take (refuse : Nat → Cursor → ε) (n : Nat) :
    Reads (Reader.take refuse n) fun a bytes => a.length = n ∧ bytes = a := by
  intro cur a cur'
  have run : (Reader.take refuse n).run cur = if cur.remaining < n then .error (refuse n cur)
      else .ok ((cur.buf.drop cur.pos).take n, { cur with pos := cur.pos + n }) := rfl
  rw [run]
  by_cases short : cur.remaining < n
  · rw [if_pos short]
    constructor
    · intro h
      cases h
    · rintro ⟨_, rest, ⟨rfl, rfl⟩, hdrop, -⟩
      have lengths := congrArg List.length hdrop
      rw [List.length_drop, List.length_append] at lengths
      unfold Cursor.remaining at short
      omega
  · rw [if_neg short]
    unfold Cursor.remaining at short
    constructor
    · intro h
      cases h
      have length : ((cur.buf.drop cur.pos).take n).length = n := by
        rw [List.length_take, List.length_drop]
        omega
      exact ⟨_, (cur.buf.drop cur.pos).drop n, ⟨length, rfl⟩, (List.take_append_drop ..).symm,
        by rw [length]⟩
    · rintro ⟨_, rest, ⟨rfl, rfl⟩, hdrop, rfl⟩
      rw [hdrop, List.take_left]

theorem Reads.whole (h : Reads read F) {bytes : List UInt8} {a : α} {cur : Cursor} :
    read.run ⟨bytes, 0⟩ = .ok (a, cur) ∧ cur.pos = bytes.length ↔
      F a bytes ∧ cur = ⟨bytes, bytes.length⟩ := by
  rw [h ⟨bytes, 0⟩ a cur]
  constructor
  · rintro ⟨⟨taken, rest, found, here, rfl⟩, whole⟩
    simp only [Nat.zero_add] at whole
    change bytes = taken ++ rest at here
    have none : rest = [] := by
      have lengths := congrArg List.length here
      rw [List.length_append, whole] at lengths
      exact List.length_eq_zero_iff.mp (by omega)
    rw [none, List.append_nil] at here
    rw [here]
    exact ⟨found, by simp⟩
  · rintro ⟨found, rfl⟩
    exact ⟨⟨bytes, [], found, (List.append_nil _).symm, by simp⟩, rfl⟩

/-- A reader that refuses what it leaves unread. -/
theorem Reads.ends (h : Reads read F) (refuse : Cursor → ε) {bytes : List UInt8} {a : α}
    {cur : Cursor} : (do
      let a ← read
      let cur ← get
      if cur.pos ≠ bytes.length then MonadExcept.throw (refuse cur)
      else return a : Read ε α).run ⟨bytes, 0⟩ = .ok (a, cur) ↔
        F a bytes ∧ cur = ⟨bytes, bytes.length⟩ := by
  rw [← h.whole, Reader.bind_eq_ok]
  constructor
  · rintro ⟨b, mid, ran, last⟩
    change (if mid.pos ≠ bytes.length then MonadExcept.throw (refuse mid)
      else Pure.pure b : Read ε α).run mid = _ at last
    split at last
    · cases last
    · rename_i ended
      cases last
      exact ⟨ran, not_not.mp ended⟩
  · rintro ⟨ran, ended⟩
    refine ⟨a, cur, ran, ?_⟩
    change (if cur.pos ≠ bytes.length then MonadExcept.throw (refuse cur)
      else Pure.pure a : Read ε α).run cur = _
    rw [if_neg (not_not.mpr ended)]
    rfl

theorem Reads.whole_of_front (h : Reads read F) {bytes more : List UInt8} {a b : α}
    (front : F a bytes) (all : F b (bytes ++ more)) : more = [] := by
  have first := (h ⟨bytes ++ more, 0⟩ a _).mpr ⟨bytes, more, front, rfl, rfl⟩
  have second := (h ⟨bytes ++ more, 0⟩ b _).mpr ⟨_, [], all, (List.append_nil _).symm, rfl⟩
  rw [first, Except.ok.injEq, Prod.mk.injEq, Cursor.mk.injEq, List.length_append] at second
  apply List.length_eq_zero_iff.mp
  omega

def readMany (read : Read ε α) : Nat → Read ε (List α)
  | 0 => Pure.pure []
  | count + 1 => do
    let a ← read
    let rest ← readMany read count
    return a :: rest

/-- A list of values is written as their bytes one after another. -/
theorem Reads.many {valid : α → Prop} {image : α → List UInt8}
    (h : Reads read fun a bytes => valid a ∧ bytes = image a) (count : Nat) :
    Reads (readMany read count) fun l bytes =>
      (l.length = count ∧ ∀ a ∈ l, valid a) ∧ bytes = l.flatMap image := by
  induction count with
  | zero =>
    refine (Reads.pure []).congr fun l bytes => ?_
    constructor
    · rintro ⟨rfl, rfl⟩
      simp
    · rintro ⟨⟨empty, -⟩, rfl⟩
      rw [List.length_eq_zero_iff.mp empty]
      exact ⟨rfl, rfl⟩
  | succ count ih =>
    refine (h.bind fun a => ih.bind fun rest => Reads.pure (a :: rest)).congr fun l bytes => ?_
    constructor
    · rintro ⟨a, _, _, ⟨ha, rfl⟩, ⟨rest, _, _, ⟨⟨length, hrest⟩, rfl⟩, ⟨rfl, rfl⟩, rfl⟩, rfl⟩
      refine ⟨⟨by rw [List.length_cons, length], ?_⟩, by simp⟩
      intro b hb
      rcases List.mem_cons.mp hb with rfl | hb
      · exact ha
      · exact hrest b hb
    · rintro ⟨⟨length, all⟩, rfl⟩
      cases l with
      | nil => cases length
      | cons a rest =>
        refine ⟨a, _, _, ⟨all a (List.mem_cons_self ..), rfl⟩, ⟨rest, _, _, ⟨⟨?_, ?_⟩, rfl⟩,
          ⟨rfl, rfl⟩, rfl⟩, by simp⟩
        · simpa using length
        · exact fun b hb => all b (List.mem_cons_of_mem _ hb)

/-- The reader accepts a value exactly where its bytes are all that is left. -/
def ReadsRest (read : Read ε α) (F : α → List UInt8 → Prop) : Prop :=
  ∀ cur a cur', cur.Inside → (read.run cur = .ok (a, cur') ↔
    F a (cur.buf.drop cur.pos) ∧ cur' = { cur with pos := cur.buf.length })

theorem ReadsRest.congr (h : ReadsRest read F) (same : ∀ a bytes, F a bytes ↔ F' a bytes) :
    ReadsRest read F' := by
  intro cur a cur' inside
  rw [h cur a cur' inside, same]

theorem ReadsRest.throw (e : ε) :
    ReadsRest (MonadExcept.throw e : Read ε α) fun _ _ => False := by
  intro cur a cur' _
  constructor
  · intro h
    cases h
  · rintro ⟨⟨⟩, -⟩

theorem ReadsRest.map (h : ReadsRest read F) (f : α → β) :
    ReadsRest (read >>= fun a => Pure.pure (f a)) fun b bytes => ∃ a, F a bytes ∧ b = f a := by
  intro cur b cur' inside
  rw [Reader.bind_eq_ok]
  constructor
  · rintro ⟨a, mid, ran, last⟩
    cases last
    obtain ⟨found, same⟩ := (h cur a cur' inside).mp ran
    exact ⟨⟨a, found, rfl⟩, same⟩
  · rintro ⟨⟨a, found, rfl⟩, same⟩
    exact ⟨a, cur', (h cur a cur' inside).mpr ⟨found, same⟩, rfl⟩

theorem drop_eq_iff {cur : Cursor} (inside : cur.Inside) {a : α} {cur' : Cursor} :
    (∃ bytes rest, F a bytes ∧ cur.buf.drop cur.pos = bytes ++ rest ∧
      cur' = { cur with pos := cur.pos + bytes.length }) ∧ cur'.pos = cur.buf.length ↔
      F a (cur.buf.drop cur.pos) ∧ cur' = { cur with pos := cur.buf.length } := by
  have length : (cur.buf.drop cur.pos).length = cur.buf.length - cur.pos := List.length_drop ..
  rw [Cursor.Inside] at inside
  constructor
  · rintro ⟨⟨bytes, rest, found, here, rfl⟩, ended⟩
    dsimp only at ended
    have none : rest = [] := by
      apply List.length_eq_zero_iff.mp
      rw [here, List.length_append] at length
      omega
    rw [here, none, List.append_nil]
    exact ⟨found, by rw [ended]⟩
  · rintro ⟨found, rfl⟩
    refine ⟨⟨_, [], found, (List.append_nil _).symm, ?_⟩, rfl⟩
    rw [length, Nat.add_sub_cancel' inside]

/-- A reader that refuses what it leaves unread. -/
theorem Reads.bind_ends (h : Reads read F) (refuse : Cursor → ε) : ReadsRest (do
    let a ← read
    let cur ← get
    if cur.pos ≠ cur.buf.length then MonadExcept.throw (refuse cur) else return a) F := by
  intro cur a cur' inside
  rw [← drop_eq_iff inside, ← h cur a cur', Reader.bind_eq_ok]
  have same {mid : Cursor} {b : α} (ran : read.run cur = .ok (b, mid)) : mid.buf = cur.buf := by
    obtain ⟨_, _, -, -, rfl⟩ := (h cur b mid).mp ran
    rfl
  constructor
  · rintro ⟨b, mid, ran, last⟩
    change (if mid.pos ≠ mid.buf.length then MonadExcept.throw (refuse mid)
      else Pure.pure b : Read ε α).run mid = _ at last
    split at last
    · cases last
    · rename_i ended
      cases last
      rw [same ran, not_not] at ended
      exact ⟨ran, ended⟩
  · rintro ⟨ran, ended⟩
    refine ⟨a, cur', ran, ?_⟩
    change (if cur'.pos ≠ cur'.buf.length then MonadExcept.throw (refuse cur')
      else Pure.pure a : Read ε α).run cur' = _
    rw [same ran, if_neg (not_not.mpr ended)]
    rfl

/-- A reader that is to end exactly at the end, checked before it reads. -/
theorem Reads.exactly {len : Nat} (h : Reads read F) (width : ∀ a bytes, F a bytes → bytes.length = len)
    (refuse : Cursor → ε) : ReadsRest (do
      let cur ← get
      if cur.pos + len ≠ cur.buf.length then MonadExcept.throw (refuse cur) else read) F := by
  intro cur a cur' inside
  rw [← drop_eq_iff inside, ← h cur a cur']
  change (if cur.pos + len ≠ cur.buf.length then MonadExcept.throw (refuse cur)
    else read : Read ε α).run cur = _ ↔ _
  have ends (ran : read.run cur = .ok (a, cur')) : cur'.pos = cur.pos + len := by
    obtain ⟨_, _, found, -, rfl⟩ := (h cur a cur').mp ran
    rw [← width _ _ found]
  split
  · rename_i short
    constructor
    · intro h
      cases h
    · rintro ⟨ran, ended⟩
      exact absurd ((ends ran).symm.trans ended) short
  · rename_i whole
    exact ⟨fun ran => ⟨ran, (ends ran).trans (not_not.mp whole)⟩, fun ran => ran.1⟩

theorem ReadsRest.remaining {f : Nat → Read ε α} (h : ∀ len, Reads (f len) fun a bytes =>
    F a bytes ∧ bytes.length = len) : ReadsRest (do f (← get).remaining) F := by
  intro cur a cur' inside
  have left : (cur.buf.drop cur.pos).length = cur.remaining := List.length_drop ..
  change (f cur.remaining).run cur = _ ↔ _
  have whole (ran : (f cur.remaining).run cur = .ok (a, cur')) : cur'.pos = cur.buf.length := by
    obtain ⟨_, _, ⟨-, length⟩, -, rfl⟩ := (h _ cur a cur').mp ran
    rw [length]
    exact Nat.add_sub_cancel' inside
  have both := @drop_eq_iff α (fun a bytes => F a bytes ∧ bytes.length = cur.remaining) cur inside a cur'
  rw [← h _ cur a cur', left] at both
  constructor
  · intro ran
    obtain ⟨⟨found, -⟩, same⟩ := both.mp ⟨ran, whole ran⟩
    exact ⟨found, same⟩
  · rintro ⟨found, same⟩
    exact (both.mpr ⟨⟨found, rfl⟩, same⟩).1

theorem Reads.bind_rest {f : α → Read ε β} {G : α → β → List UInt8 → Prop} (first : Reads read F)
    (second : ∀ a, ReadsRest (f a) (G a)) :
    ReadsRest (read >>= f) fun b bytes => ∃ a x y, F a x ∧ G a b y ∧ bytes = x ++ y := by
  intro cur b cur' inside
  rw [Reader.bind_eq_ok]
  have reaches {x rest : List UInt8} (here : cur.buf.drop cur.pos = x ++ rest) :
      ({ cur with pos := cur.pos + x.length } : Cursor).Inside ∧
        cur.buf.drop (cur.pos + x.length) = rest := by
    constructor
    · have lengths := congrArg List.length here
      rw [List.length_drop, List.length_append] at lengths
      rw [Cursor.Inside] at inside ⊢
      dsimp only
      omega
    · rw [← List.drop_drop, here, List.drop_left]
  constructor
  · rintro ⟨a, mid, ran, rest⟩
    obtain ⟨x, y, found, here, rfl⟩ := (first cur a mid).mp ran
    obtain ⟨inside', after⟩ := reaches here
    obtain ⟨found', same⟩ := (second a _ b cur' inside').mp rest
    rw [after] at found'
    exact ⟨⟨a, x, y, found, found', here⟩, same⟩
  · rintro ⟨⟨a, x, y, found, found', here⟩, same⟩
    obtain ⟨inside', after⟩ := reaches here
    refine ⟨a, _, (first cur a _).mpr ⟨x, y, found, here, rfl⟩, (second a _ b cur' inside').mpr ?_⟩
    exact ⟨after ▸ found', same⟩

/-- Each element in turn is allowed after those before it. -/
def Grows (allowed : List α → α → Prop) : List α → List α → Prop
  | _, [] => True
  | held, a :: rest => allowed held a ∧ Grows allowed (held ++ [a]) rest

theorem grows_and_iff {allowed : List α → α → Prop} {alone : α → Prop} {held l : List α} :
    Grows (fun held a => allowed held a ∧ alone a) held l ↔
      Grows allowed held l ∧ ∀ a ∈ l, alone a := by
  induction l generalizing held with
  | nil => exact iff_of_true trivial ⟨trivial, nofun⟩
  | cons a rest ih =>
    unfold Grows
    rw [ih, List.forall_mem_cons]
    exact and_and_and_comm

/-- What is asked of each element and one before it is asked of all pairs. -/
theorem grows_iff_pairwise {apart : α → α → Prop} {held l : List α} :
    Grows (fun held a => ∀ other ∈ held, apart other a) held l ↔
      l.Pairwise apart ∧ ∀ other ∈ held, ∀ a ∈ l, apart other a := by
  induction l generalizing held with
  | nil => exact iff_of_true trivial ⟨.nil, nofun⟩
  | cons a rest ih =>
    unfold Grows
    rw [ih, List.pairwise_cons]
    constructor
    · rintro ⟨here, later, across⟩
      refine ⟨⟨fun b hb => across a (by simp) b hb, later⟩, fun other hother => ?_⟩
      exact List.forall_mem_cons.mpr
        ⟨here other hother, fun b hb => across other (List.mem_append_left _ hother) b hb⟩
    · rintro ⟨⟨first, later⟩, across⟩
      refine ⟨fun other hother => across other hother a (List.mem_cons_self ..), later, ?_⟩
      intro other hother b hb
      rcases List.mem_append.mp hother with hother | hother
      · exact across other hother b (List.mem_cons_of_mem _ hb)
      · rw [List.mem_singleton.mp hother]
        exact first b hb

/-- So many values one after another, each checked against those before it. -/
def gather (read : Read ε α) (check : List α → α → Nat → Except ε Unit) :
    Nat → List α → Read ε (List α)
  | 0, held => Pure.pure held
  | count + 1, held => do
    let a ← read
    let cur ← get
    let _ ← (check held a cur.pos : Except ε Unit)
    gather read check count (held ++ [a])

theorem Reads.gather {valid : α → Prop} {image : α → List UInt8} {allowed : List α → α → Prop}
    {check : List α → α → Nat → Except ε Unit}
    (h : Reads read fun a bytes => valid a ∧ bytes = image a)
    (checks : ∀ held a pos, check held a pos = .ok () ↔ allowed held a) (count : Nat)
    (held : List α) : Reads (Format.gather read check count held) fun l bytes => ∃ more,
      l = held ++ more ∧ (more.length = count ∧ (∀ a ∈ more, valid a) ∧ Grows allowed held more) ∧
        bytes = more.flatMap image := by
  induction count generalizing held with
  | zero =>
    refine (Reads.pure held).congr fun l bytes => ?_
    constructor
    · rintro ⟨rfl, rfl⟩
      exact ⟨[], (List.append_nil _).symm, ⟨rfl, nofun, trivial⟩, rfl⟩
    · rintro ⟨more, rfl, ⟨empty, -, -⟩, rfl⟩
      rw [List.length_eq_zero_iff.mp empty]
      exact ⟨List.append_nil _, rfl⟩
  | succ count ih =>
    have passes (a : α) (pos : Nat) : Reads (liftM (check held a pos) : Read ε Unit)
        fun _ bytes => allowed held a ∧ bytes = [] :=
      Reads.check.congr fun _ _ => and_congr_left fun _ => checks held a pos
    refine (h.bind fun a => Reads.get_bind fun cur => (passes a cur.pos).bind
      fun _ => ih (held ++ [a])).congr fun l bytes => ?_
    constructor
    · rintro ⟨a, _, _, ⟨ha, rfl⟩, ⟨⟨⟩, _, _, ⟨passed, rfl⟩, ⟨more, rfl, ⟨length, hmore, grows⟩, rfl⟩,
        rfl⟩, rfl⟩
      refine ⟨a :: more, List.append_assoc .., ⟨congrArg Nat.succ length, ?_, passed, grows⟩, rfl⟩
      exact List.forall_mem_cons.mpr ⟨ha, hmore⟩
    · rintro ⟨more, rfl, ⟨length, all, grows⟩, rfl⟩
      cases more with
      | nil => cases length
      | cons a more =>
        obtain ⟨ha, hmore⟩ := List.forall_mem_cons.mp all
        exact ⟨a, _, _, ⟨ha, rfl⟩, ⟨⟨⟩, _, _, ⟨grows.1, rfl⟩, ⟨more,
          by simp, ⟨Nat.succ.inj length, hmore, grows.2⟩, rfl⟩, rfl⟩, rfl⟩

/-- A builder that takes elements one by one takes exactly the lists that grow what it holds. -/
theorem foldlM_eq_ok_iff_grows {β : Type} {push : β → α → Except ε β} (held : β → List α)
    {add : β → α → β} {allowed : List α → α → Prop}
    (step : ∀ b a b', push b a = .ok b' ↔ allowed (held b) a ∧ b' = add b a)
    (adds : ∀ b a, held (add b a) = held b ++ [a]) (l : List α) (b b' : β) :
    l.foldlM push b = .ok b' ↔ Grows allowed (held b) l ∧ b' = l.foldl add b := by
  induction l generalizing b with
  | nil =>
    constructor
    · intro h
      cases h
      exact ⟨trivial, rfl⟩
    · rintro ⟨-, rfl⟩
      rfl
  | cons a rest ih =>
    rw [List.foldlM_cons, List.foldl_cons]
    unfold Grows
    rw [← adds]
    constructor
    · intro h
      cases pushed : push b a with
      | error e =>
        rw [pushed] at h
        cases h
      | ok next =>
        rw [pushed] at h
        obtain ⟨fits, rfl⟩ := (step b a next).mp pushed
        obtain ⟨grows, same⟩ := (ih _).mp h
        exact ⟨⟨fits, grows⟩, same⟩
    · rintro ⟨⟨fits, grows⟩, same⟩
      rw [(step b a _).mpr ⟨fits, rfl⟩]
      exact (ih _).mpr ⟨grows, same⟩

end

theorem toBeBytes_fromBeBytes (bytes : List UInt8) :
    toBeBytes bytes.length (fromBeBytes bytes) = bytes := by
  induction bytes using List.reverseRecOn with
  | nil => rfl
  | append_singleton bytes byte ih =>
    have small : byte.toNat < 256 := byte.toNat_lt
    rw [List.length_append, List.length_singleton, toBeBytes, fromBeBytes_append]
    have high : (fromBeBytes bytes * 256 + byte.toNat) / 256 = fromBeBytes bytes := by omega
    have low : UInt8.ofNat (fromBeBytes bytes * 256 + byte.toNat) = byte := by
      apply UInt8.toNat_inj.mp
      rw [UInt8.toNat_ofNat']
      omega
    rw [high, low, ih]

theorem toBeBytes_of_length {bytes : List UInt8} {width : Nat} (length : bytes.length = width) :
    toBeBytes width (fromBeBytes bytes) = bytes := by
  subst length
  exact toBeBytes_fromBeBytes bytes

theorem fromBeBytes_lt (bytes : List UInt8) : fromBeBytes bytes < 256 ^ bytes.length := by
  have round := fromBeBytes_toBeBytes bytes.length (fromBeBytes bytes)
  rw [toBeBytes_fromBeBytes] at round
  rw [round]
  exact Nat.mod_lt _ (by positivity)

theorem fromBeBytes_lt_of_length_le {bytes : List UInt8} {width : Nat}
    (short : bytes.length ≤ width) : fromBeBytes bytes < 256 ^ width :=
  lt_of_lt_of_le (fromBeBytes_lt bytes) (Nat.pow_le_pow_right (by decide) short)

theorem Reads.unsigned (refuse : Nat → Cursor → ε) (width : Nat) :
    Reads (Reader.unsigned refuse width) fun value bytes =>
      value < 256 ^ width ∧ bytes = toBeBytes width value := by
  refine ((Reads.take refuse width).bind fun bytes => Reads.pure _).congr fun value bytes => ?_
  constructor
  · rintro ⟨raw, _, _, ⟨rfl, rfl⟩, ⟨rfl, rfl⟩, rfl⟩
    rw [toBeBytes_fromBeBytes, List.append_nil]
    exact ⟨fromBeBytes_lt _, rfl⟩
  · rintro ⟨small, rfl⟩
    refine ⟨toBeBytes width value, _, _, ⟨length_toBeBytes .., rfl⟩, ⟨?_, rfl⟩, by simp⟩
    rw [fromBeBytes_toBeBytes, Nat.mod_eq_of_lt small]

theorem neg_le_castSigned {width : Nat} (positive : 0 < width) (value : Nat) :
    -(2 ^ (width - 1)) ≤ castSigned width value := by
  obtain ⟨half, rfl⟩ : ∃ half, width = half + 1 := ⟨width - 1, by omega⟩
  have double : (2 : Int) ^ (half + 1) = 2 * 2 ^ half := by ring
  have power : (0 : Int) < 2 ^ half := by positivity
  simp only [castSigned, Nat.add_sub_cancel]
  split
  · omega
  · rename_i large
    have : (2 : Int) ^ half ≤ ((value % 2 ^ (half + 1) : Nat) : Int) := by
      exact_mod_cast Nat.not_lt.mp large
    omega

theorem castUnsigned_natCast {width value : Nat} (small : value < 2 ^ width) :
    castUnsigned width (value : Int) = value := by
  have reduced : (value : Int) % 2 ^ width = ((value % 2 ^ width : Nat) : Int) := by push_cast; rfl
  rw [castUnsigned, reduced, Int.toNat_natCast, Nat.mod_eq_of_lt small]

theorem castUnsigned_castSigned (width value : Nat) :
    castUnsigned width (castSigned width value) = value % 2 ^ width := by
  have low : value % 2 ^ width < 2 ^ width := Nat.mod_lt _ (Nat.two_pow_pos width)
  unfold castSigned
  dsimp only
  split
  · exact castUnsigned_natCast low
  · rw [castUnsigned, Int.sub_emod_right]
    exact castUnsigned_natCast low

theorem Reads.signed (refuse : Nat → Cursor → ε) {width : Nat} (positive : 0 < width) :
    Reads (Reader.signed refuse width) fun value bytes =>
      (-(2 ^ (8 * width - 1)) ≤ value ∧ value < 2 ^ (8 * width - 1)) ∧
        bytes = toBeBytes width (castUnsigned (8 * width) value) := by
  have power : 2 ^ (8 * width) = 256 ^ width := by rw [Nat.pow_mul]
  refine ((Reads.take refuse width).bind fun bytes => Reads.pure _).congr fun value bytes => ?_
  constructor
  · rintro ⟨raw, _, _, ⟨rfl, rfl⟩, ⟨rfl, rfl⟩, rfl⟩
    refine ⟨⟨neg_le_castSigned (by omega) _, castSigned_lt _ _⟩, ?_⟩
    rw [castUnsigned_castSigned, power, Nat.mod_eq_of_lt (fromBeBytes_lt _),
      toBeBytes_fromBeBytes, List.append_nil]
  · rintro ⟨⟨low, high⟩, rfl⟩
    refine ⟨toBeBytes width (castUnsigned (8 * width) value), _, _, ⟨length_toBeBytes .., rfl⟩,
      ⟨?_, rfl⟩, by simp⟩
    have small : castUnsigned (8 * width) value < 256 ^ width := by
      rw [← power, castUnsigned]
      have bound := Int.emod_lt_of_pos value (show (0 : Int) < 2 ^ (8 * width) by positivity)
      have nonneg := Int.emod_nonneg value (show (2 : Int) ^ (8 * width) ≠ 0 by positivity)
      zify
      rw [Int.toNat_of_nonneg nonneg]
      exact bound
    rw [fromBeBytes_toBeBytes, Nat.mod_eq_of_lt small,
      castSigned_castUnsigned (by omega) low high]

section
variable {put : Write ε Unit} {W W' : List UInt8 → Prop}

theorem Writes.congr (h : Writes put W) (same : ∀ bytes, W bytes ↔ W' bytes) : Writes put W' := by
  intro out out'
  simp only [h out out', same]

theorem Writes.whole (h : Writes put W) {bytes : List UInt8} :
    put.run [] = .ok ((), bytes) ↔ W bytes := by
  rw [h [] bytes]
  simp

def append (bytes : List UInt8) : Write ε Unit := fun out => .ok ((), out ++ bytes)

theorem Writes.append (bytes : List UInt8) :
    Writes (Format.append bytes : Write ε Unit) fun written => written = bytes := by
  intro out out'
  constructor
  · intro h
    cases h
    exact ⟨bytes, rfl, rfl⟩
  · rintro ⟨_, rfl, rfl⟩
    rfl

theorem Writes.nothing : Writes (Pure.pure () : Write ε Unit) fun written => written = [] := by
  intro out out'
  constructor
  · intro h
    cases h
    exact ⟨[], rfl, (List.append_nil _).symm⟩
  · rintro ⟨_, rfl, rfl⟩
    rw [List.append_nil]
    rfl

theorem Writes.bind {rest : Write ε Unit} (first : Writes put W) (second : Writes rest W') :
    Writes (put >>= fun _ => rest) fun written => ∃ x y, W x ∧ W' y ∧ written = x ++ y := by
  intro out out'
  have parts : (put >>= fun _ => rest).run out = (put.run out >>= fun p => rest.run p.2) := rfl
  rw [parts]
  constructor
  · intro h
    cases ran : put.run out with
    | error e =>
      rw [ran] at h
      cases h
    | ok mid =>
      rw [ran] at h
      obtain ⟨x, hx, hmid⟩ := (first out mid.2).mp ran
      obtain ⟨y, hy, rfl⟩ := (second mid.2 out').mp h
      exact ⟨x ++ y, ⟨x, y, hx, hy, rfl⟩, by rw [hmid, List.append_assoc]⟩
  · rintro ⟨_, ⟨x, y, hx, hy, rfl⟩, rfl⟩
    rw [(first out (out ++ x)).mpr ⟨x, hx, rfl⟩]
    exact (second (out ++ x) _).mpr ⟨y, hy, by rw [List.append_assoc]⟩

theorem Writes.guarded {P : Prop} [Decidable P] (refuse : List UInt8 → ε) (h : Writes put W) :
    Writes (fun out => if P then put out else .error (refuse out)) fun written => P ∧ W written := by
  intro out out'
  change (if P then put.run out else .error (refuse out)) = _ ↔ _
  by_cases holds : P
  · rw [if_pos holds, h out out']
    simp [holds]
  · rw [if_neg holds]
    simp [holds]

theorem Writes.each {write : α → Write ε Unit} {fits : α → Prop} {image : α → List UInt8}
    (h : ∀ a, Writes (write a) fun written => fits a ∧ written = image a) (l : List α) :
    Writes (l.forM write) fun written => (∀ a ∈ l, fits a) ∧ written = l.flatMap image := by
  induction l with
  | nil =>
    refine Writes.nothing.congr fun written => ?_
    simp
  | cons a rest ih =>
    refine ((h a).bind ih).congr fun written => ?_
    constructor
    · rintro ⟨_, _, ⟨ha, rfl⟩, ⟨hrest, rfl⟩, rfl⟩
      refine ⟨?_, by simp⟩
      intro b hb
      rcases List.mem_cons.mp hb with rfl | hb
      · exact ha
      · exact hrest b hb
    · rintro ⟨all, rfl⟩
      exact ⟨_, _, ⟨all a (List.mem_cons_self ..), rfl⟩,
        ⟨fun b hb => all b (List.mem_cons_of_mem _ hb), rfl⟩, by simp⟩

end

end Format
