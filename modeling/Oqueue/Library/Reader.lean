import Oqueue.Library.Bytes

/-!
# Bounds-checked reads

A cursor over a byte string, and reads that move it or refuse. What a refusal
says is the reader's own, so `take` is given it.
-/

namespace Reader

open Bytes

structure Cursor where
  buf : List UInt8
  pos : Nat := 0
  deriving DecidableEq, Repr

def Cursor.remaining (self : Cursor) : Nat := self.buf.length - self.pos

abbrev Read (ε α : Type) := StateT Cursor (Except ε) α

variable {ε α β : Type}

theorem bind_eq_ok {x : Read ε α} {f : α → Read ε β} {cur : Cursor} {out : β × Cursor} :
    (x >>= f).run cur = .ok out ↔ ∃ a mid, x.run cur = .ok (a, mid) ∧ (f a).run mid = .ok out := by
  have parts : (x >>= f).run cur = (x.run cur >>= fun p => (f p.1).run p.2) := rfl
  rw [parts]
  cases x.run cur with
  | error e =>
    constructor
    · intro h
      cases h
    · rintro ⟨a, mid, h, -⟩
      cases h
  | ok mid =>
    refine ⟨fun h => ⟨mid.1, mid.2, rfl, h⟩, ?_⟩
    rintro ⟨a, mid', h, hrest⟩
    cases h
    exact hrest

theorem lift_eq_ok {x : Except ε α} {cur : Cursor} {out : α × Cursor} :
    (liftM x : Read ε α).run cur = .ok out ↔ x = .ok out.1 ∧ out.2 = cur := by
  obtain ⟨a, cur'⟩ := out
  cases x with
  | error e =>
    constructor
    · intro h
      cases h
    · rintro ⟨h, -⟩
      cases h
  | ok value =>
    constructor
    · intro h
      cases h
      exact ⟨rfl, rfl⟩
    · rintro ⟨h, rfl⟩
      cases h
      rfl

def take (refuse : Nat → Cursor → ε) (n : Nat) : Read ε (List UInt8) := fun self =>
  if self.remaining < n then .error (refuse n self)
  else .ok ((self.buf.drop self.pos).take n, { self with pos := self.pos + n })

/-- A big-endian field of so many bytes, unsigned. -/
def unsigned (refuse : Nat → Cursor → ε) (width : Nat) : Read ε Nat := do
  return fromBeBytes (← take refuse width)

/-- A big-endian field of so many bytes, in two's complement. -/
def signed (refuse : Nat → Cursor → ε) (width : Nat) : Read ε Int := do
  return castSigned (8 * width) (fromBeBytes (← take refuse width))

theorem take_eq_ok {refuse : Nat → Cursor → ε} {n : Nat} {cur : Cursor}
    {out : List UInt8 × Cursor} : (take refuse n).run cur = .ok out ↔
      n ≤ cur.remaining ∧ out = ((cur.buf.drop cur.pos).take n, { cur with pos := cur.pos + n }) := by
  change (if cur.remaining < n then _ else _) = _ ↔ _
  split
  · rename_i short
    refine ⟨nofun, ?_⟩
    rintro ⟨enough, -⟩
    exact absurd short (Nat.not_lt.mpr enough)
  · rename_i enough
    refine ⟨?_, ?_⟩
    · intro h
      cases h
      exact ⟨Nat.not_lt.mp enough, rfl⟩
    · rintro ⟨-, rfl⟩
      rfl

def field (buf : List UInt8) (start width : Nat) : List UInt8 := (buf.drop start).take width

theorem take_bind_eq_ok {refuse : Nat → Cursor → ε} {width : Nat} {f : List UInt8 → Read ε α}
    {cur : Cursor} {out : α × Cursor} : (take refuse width >>= f).run cur = .ok out ↔
      width ≤ cur.remaining ∧
        (f (field cur.buf cur.pos width)).run { cur with pos := cur.pos + width } = .ok out := by
  constructor
  · intro ran
    obtain ⟨bytes, mid, taken, ran⟩ := bind_eq_ok.mp ran
    obtain ⟨enough, same⟩ := take_eq_ok.mp taken
    cases same
    exact ⟨enough, ran⟩
  · rintro ⟨enough, ran⟩
    exact bind_eq_ok.mpr ⟨_, _, take_eq_ok.mpr ⟨enough, rfl⟩, ran⟩

theorem unsigned_bind_eq_ok {refuse : Nat → Cursor → ε} {width : Nat} {f : Nat → Read ε α}
    {cur : Cursor} {out : α × Cursor} : (unsigned refuse width >>= f).run cur = .ok out ↔
      width ≤ cur.remaining ∧ (f (fromBeBytes (field cur.buf cur.pos width))).run
        { cur with pos := cur.pos + width } = .ok out := by
  rw [unsigned, bind_assoc, take_bind_eq_ok]
  simp only [pure_bind]

theorem signed_bind_eq_ok {refuse : Nat → Cursor → ε} {width : Nat} {f : Int → Read ε α}
    {cur : Cursor} {out : α × Cursor} : (signed refuse width >>= f).run cur = .ok out ↔
      width ≤ cur.remaining ∧
        (f (castSigned (8 * width) (fromBeBytes (field cur.buf cur.pos width)))).run
          { cur with pos := cur.pos + width } = .ok out := by
  rw [signed, bind_assoc, take_bind_eq_ok]
  simp only [pure_bind]

def Cursor.Inside (self : Cursor) : Prop := self.pos ≤ self.buf.length

/-- A read of the same bytes that moves on by at least so many, and never past their end. -/
def Consumes (least : Nat) (x : Read ε α) : Prop :=
  ∀ ⦃cur out⦄, x.run cur = .ok out → cur.Inside →
    out.2.buf = cur.buf ∧ cur.pos + least ≤ out.2.pos ∧ out.2.Inside

namespace Consumes

variable {least more : Nat} {x : Read ε α} {f : α → Read ε β}

theorem weaken (consumes : Consumes more x) (le : least ≤ more) : Consumes least x := by
  intro cur out ran inside
  obtain ⟨same, moved, within⟩ := consumes ran inside
  exact ⟨same, by omega, within⟩

theorem pure (value : α) : Consumes 0 (Pure.pure value : Read ε α) := by
  intro cur out ran inside
  cases ran
  exact ⟨rfl, Nat.le_refl _, inside⟩

theorem throw (e : ε) : Consumes least (MonadExcept.throw e : Read ε α) := by
  intro cur out ran
  cases ran

theorem take (refuse : Nat → Cursor → ε) (n : Nat) : Consumes n (Reader.take refuse n) := by
  intro cur out ran inside
  obtain ⟨enough, rfl⟩ := take_eq_ok.mp ran
  refine ⟨rfl, Nat.le_refl _, ?_⟩
  rw [Cursor.Inside] at inside ⊢
  rw [Cursor.remaining] at enough
  dsimp only
  omega

theorem bind (first : Consumes least x) (second : ∀ a, Consumes more (f a)) :
    Consumes (least + more) (x >>= f) := by
  intro cur out ran inside
  obtain ⟨a, mid, front, back⟩ := bind_eq_ok.mp ran
  obtain ⟨same, moved, within⟩ := first front inside
  obtain ⟨same', moved', within'⟩ := second a back within
  dsimp only at same moved
  exact ⟨same'.trans same, by omega, within'⟩

theorem get {f : Cursor → Read ε α} (rest : ∀ cur, Consumes least (f cur)) :
    Consumes least (MonadState.get >>= f) := by
  intro cur out ran inside
  exact rest cur ran inside

theorem ite {p : Prop} [Decidable p] {x y : Read ε α} (yes : Consumes least x)
    (no : Consumes least y) : Consumes least (if p then x else y) := by
  split
  · exact yes
  · exact no

end Consumes

/-- The same read, whose refusal another reader words its own way. -/
def Read.refusing {δ : Type} (wording : δ → ε) (x : Read δ α) : Read ε α := fun cur =>
  (x.run cur).mapError wording

theorem refusing_eq_ok {δ : Type} {wording : δ → ε} {x : Read δ α} {cur : Cursor}
    {out : α × Cursor} : (x.refusing wording).run cur = .ok out ↔ x.run cur = .ok out := by
  change (x.run cur).mapError wording = _ ↔ _
  cases x.run cur with
  | error e => exact ⟨nofun, nofun⟩
  | ok out' =>
    constructor
    · intro h
      cases h
      rfl
    · intro h
      cases h
      rfl

theorem Consumes.refusing {δ : Type} {least : Nat} {x : Read δ α} (consumes : Consumes least x)
    (wording : δ → ε) : Consumes least (x.refusing wording) := by
  intro cur out ran
  exact consumes (refusing_eq_ok.mp ran)

end Reader
