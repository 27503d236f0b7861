import Oqueue.Library.Reader

/-!
# Reads that say where they stop

A refusal of a `Read` leaves no cursor. These leave theirs where they stop, so that a
refused read can be asked how far it went; without that cursor they are the same reads.
-/

namespace Reader

variable {ε α β : Type}

abbrev Halting (ε α : Type) := ExceptT ε (StateM Cursor) α

def Cursor.advance (self : Cursor) (n : Nat) : Cursor := { self with pos := self.pos + n }

@[simp]
theorem Cursor.advance_advance (cur : Cursor) (n m : Nat) :
    (cur.advance n).advance m = cur.advance (n + m) :=
  congrArg (Cursor.mk cur.buf) (Nat.add_assoc ..)

def Cursor.rest (self : Cursor) : List UInt8 := self.buf.drop self.pos

theorem Cursor.remaining_eq (cur : Cursor) : cur.remaining = cur.rest.length :=
  List.length_drop.symm

theorem Cursor.rest_advance (cur : Cursor) (n : Nat) :
    (cur.advance n).rest = cur.rest.drop n :=
  List.drop_drop.symm

namespace Halting

def take (refuse : Nat → Cursor → ε) (n : Nat) : Halting ε (List UInt8) := fun cur =>
  if cur.remaining < n then (.error (refuse n cur), cur)
  else (.ok (cur.rest.take n), cur.advance n)

variable {x : Halting ε α} {f : α → Halting ε β} {cur mid : Cursor} {a : α} {e : ε}

theorem bind_ok (read : x cur = (.ok a, mid)) : (x >>= f) cur = f a mid := by
  have parts : (x >>= f) cur = ExceptT.bindCont f (x cur).1 (x cur).2 := rfl
  rw [parts, read]
  rfl

theorem bind_error (refused : x cur = (.error e, mid)) : (x >>= f) cur = (.error e, mid) := by
  have parts : (x >>= f) cur = ExceptT.bindCont f (x cur).1 (x cur).2 := rfl
  rw [parts, refused]
  rfl

theorem bind_cases (x : Halting ε α) (f : α → Halting ε β) (cur : Cursor) :
    (∃ e mid, x cur = (.error e, mid) ∧ (x >>= f) cur = (.error e, mid)) ∨
      ∃ a mid, x cur = (.ok a, mid) ∧ (x >>= f) cur = f a mid := by
  rcases ran : x cur with ⟨_ | a, mid⟩
  · exact .inl ⟨_, mid, rfl, bind_error ran⟩
  · exact .inr ⟨a, mid, rfl, bind_ok ran⟩

theorem take_eq_ok (refuse : Nat → Cursor → ε) {bytes after : List UInt8}
    (starts : cur.rest = bytes ++ after) :
    take refuse bytes.length cur = (.ok bytes, cur.advance bytes.length) ∧
      (cur.advance bytes.length).rest = after := by
  have enough : ¬ cur.remaining < bytes.length := by
    rw [Cursor.remaining_eq, starts, List.length_append]
    omega
  constructor
  · refine (if_neg enough).trans ?_
    rw [starts, List.take_left]
  · rw [Cursor.rest_advance, starts, List.drop_left]

/-- A read of the same bytes that goes on, and not past their end, whether or not it refuses;
what it returns takes so much of what it went over. -/
def Spends (size : α → Nat) (x : Halting ε α) : Prop :=
  ∀ cur, cur.Inside → (x cur).2.buf = cur.buf ∧ cur.pos ≤ (x cur).2.pos ∧ (x cur).2.Inside ∧
    ∀ a, (x cur).1 = .ok a → cur.pos + size a ≤ (x cur).2.pos

namespace Spends

variable {size less : α → Nat} {more : β → Nat}

theorem mono (spends : Spends size x) (le : ∀ a, less a ≤ size a) : Spends less x := by
  intro cur inside
  obtain ⟨same, goes, within, covers⟩ := spends cur inside
  refine ⟨same, goes, within, fun a ran => ?_⟩
  exact Nat.le_trans (Nat.add_le_add_left (le a) _) (covers a ran)

theorem pure (nothing : size a = 0) : Spends size (Pure.pure a : Halting ε α) := by
  intro cur inside
  refine ⟨rfl, Nat.le_refl _, inside, fun a ran => ?_⟩
  cases ran
  rw [nothing]
  exact Nat.le_refl _

theorem throw (e : ε) : Spends size (MonadExcept.throw e : Halting ε α) :=
  fun _ inside => ⟨rfl, Nat.le_refl _, inside, fun _ ran => by cases ran⟩

theorem take (refuse : Nat → Cursor → ε) (n : Nat) :
    Spends (fun bytes => max n bytes.length) (take refuse n) := by
  intro cur inside
  unfold Halting.take
  split
  · exact ⟨rfl, Nat.le_refl _, inside, fun _ ran => by cases ran⟩
  · rename_i enough
    refine ⟨rfl, Nat.le_add_right .., ?_, fun bytes ran => ?_⟩
    · unfold Cursor.remaining at enough
      unfold Cursor.Inside Cursor.advance at *
      dsimp only
      omega
    · cases ran
      have short : (cur.rest.take n).length ≤ n := List.length_take_le ..
      exact Nat.add_le_add_left (Nat.max_le.mpr ⟨Nat.le_refl _, short⟩) _

theorem bind (first : Spends size x) (second : ∀ a, Spends (fun b => more b - size a) (f a)) :
    Spends more (x >>= f) := by
  intro cur inside
  obtain ⟨same, goes, within, covers⟩ := first cur inside
  rcases bind_cases x f cur with ⟨e, mid, ran, both⟩ | ⟨a, mid, ran, both⟩
  · rw [ran] at same goes within
    rw [both]
    exact ⟨same, goes, within, fun _ ran => by cases ran⟩
  · rw [ran] at same goes within covers
    obtain ⟨same', goes', within', covers'⟩ := second a mid within
    rw [both]
    refine ⟨same'.trans same, Nat.le_trans goes goes', within', fun b ran => ?_⟩
    have front := covers a rfl
    have back := covers' b ran
    dsimp only at front back
    omega

theorem get {f : Cursor → Halting ε α} (rest : ∀ cur, Spends size (f cur)) :
    Spends size (MonadState.get >>= f) :=
  fun cur inside => rest cur cur inside

theorem ite {p : Prop} [Decidable p] {x y : Halting ε α} (yes : Spends size x)
    (no : Spends size y) : Spends size (if p then x else y) := by
  split
  · exact yes
  · exact no

end Spends

/-- What holds of a returned value and of the cursor it is returned at. -/
def Ends (P : α → Cursor → Prop) (x : Halting ε α) : Prop :=
  ∀ ⦃cur a mid⦄, x cur = (.ok a, mid) → P a mid

namespace Ends

variable {P Q : α → Cursor → Prop} {R : β → Cursor → Prop}

theorem mono (ends : Ends P x) (weaker : ∀ a mid, P a mid → Q a mid) : Ends Q x :=
  fun _ a mid read => weaker a mid (ends read)

theorem pure (holds : ∀ mid, P a mid) : Ends P (Pure.pure a : Halting ε α) := by
  intro cur a mid read
  cases read
  exact holds _

theorem throw (e : ε) : Ends P (MonadExcept.throw e : Halting ε α) := by
  intro cur a mid read
  cases read

theorem take (refuse : Nat → Cursor → ε) (n : Nat) :
    Ends (fun bytes _ => bytes.length ≤ n) (take refuse n) := by
  intro cur bytes mid read
  unfold Halting.take at read
  split at read
  · cases read
  · cases read
    exact List.length_take_le ..

theorem bind (first : Ends P x) (second : ∀ a mid, P a mid → Ends R (f a)) :
    Ends R (x >>= f) := by
  intro cur b mid read
  rcases bind_cases x f cur with ⟨e, mid', ran, both⟩ | ⟨a, mid', ran, both⟩
  · cases both.symm.trans read
  · exact second a mid' (first ran) (both.symm.trans read)

theorem get {f : Cursor → Halting ε α} (rest : ∀ cur, Ends P (f cur)) :
    Ends P (MonadState.get >>= f) :=
  fun cur _ _ read => rest cur read

theorem ite {p : Prop} [Decidable p] {x y : Halting ε α} (yes : Ends P x) (no : Ends P y) :
    Ends P (if p then x else y) := by
  split
  · exact yes
  · exact no

theorem trivial (x : Halting ε α) : Ends (fun _ _ => True) x := fun _ _ _ _ => True.intro

end Ends

/-- Where the bytes ahead begin with these, and as many follow as are needed, the read returns
the value and goes over these bytes only. -/
def Yields (least : Nat) (x : Halting ε α) (put : List UInt8) (a : α) : Prop :=
  ∀ cur after, least ≤ after.length → cur.rest = put ++ after →
    x cur = (.ok a, cur.advance put.length)

namespace Yields

variable {least more : Nat} {put further : List UInt8} {b : β}

theorem pure (a : α) : Yields least (Pure.pure a : Halting ε α) [] a :=
  fun _ _ _ _ => rfl

theorem take (refuse : Nat → Cursor → ε) (bytes : List UInt8) :
    Yields least (take refuse bytes.length) bytes bytes :=
  fun _ _ _ starts => (take_eq_ok refuse starts).1

theorem bind (first : Yields more x put a) (second : Yields least (f a) further b)
    (room : more ≤ further.length + least) : Yields least (x >>= f) (put ++ further) b := by
  intro cur after enough starts
  rw [List.append_assoc] at starts
  have fits : more ≤ (further ++ after).length := by
    rw [List.length_append]
    omega
  have next : (cur.advance put.length).rest = further ++ after := by
    rw [Cursor.rest_advance, starts, List.drop_left]
  rw [bind_ok (first cur _ fits starts), second _ after enough next, Cursor.advance_advance,
    List.length_append]

theorem get {f : Cursor → Halting ε α} (rest : ∀ cur, Yields least (f cur) put a) :
    Yields least (MonadState.get >>= f) put a :=
  fun cur after enough starts => rest cur cur after enough starts

theorem map (first : Yields least x put a) (second : f a = Pure.pure b) :
    Yields least (x >>= f) put b := by
  intro cur after enough starts
  rw [bind_ok (first cur after enough starts), second]
  rfl

end Yields

/-- What a read gives a caller that leaves at the first error. -/
def toRead (x : Halting ε α) : Read ε α := fun cur =>
  (x cur).1.map fun value => (value, (x cur).2)

theorem toRead_bind (x : Halting ε α) (f : α → Halting ε β) :
    toRead (x >>= f) = toRead x >>= fun a => toRead (f a) := by
  funext cur
  change _ = Except.bind (toRead x cur) fun p => toRead (f p.1) p.2
  unfold toRead
  rcases bind_cases x f cur with ⟨e, mid, ran, both⟩ | ⟨a, mid, ran, both⟩
  · rw [both, ran]
    rfl
  · rw [both, ran]
    rfl

theorem toRead_get_bind (f : Cursor → Halting ε α) :
    toRead (MonadState.get >>= f) = MonadState.get >>= fun cur => toRead (f cur) := rfl

theorem toRead_pure (a : α) : toRead (pure a : Halting ε α) = pure a := rfl

theorem toRead_throw (e : ε) : toRead (throw e : Halting ε α) = throw e := rfl

theorem toRead_ite {p : Prop} [Decidable p] (x y : Halting ε α) :
    toRead (if p then x else y) = if p then toRead x else toRead y := by
  split <;> rfl

theorem toRead_take (refuse : Nat → Cursor → ε) (n : Nat) :
    toRead (take refuse n) = Reader.take refuse n := by
  funext cur
  unfold toRead take Reader.take
  split <;> rfl

end Halting

end Reader
