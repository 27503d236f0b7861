import Mathlib

/-!
# Computations that may refuse

A refusing computation is an `Except`. Two of them agree when they accept the
same inputs with the same results; which refusal they give is not compared,
since a caller that batches its work may meet the offending item earlier.
-/

namespace Checked

universe u v
variable {ε α β : Type u}

@[simp] theorem bind_ok (a : α) (f : α → Except ε β) :
    ((Except.ok a : Except ε α) >>= f) = f a := rfl

@[simp] theorem bind_error (e : ε) (f : α → Except ε β) :
    ((Except.error e : Except ε α) >>= f) = Except.error e := rfl

theorem bind_eq_ok {x : Except ε α} {f : α → Except ε β} {b : β} :
    (x >>= f) = .ok b ↔ ∃ a, x = .ok a ∧ f a = .ok b := by
  cases x with
  | error e => simp
  | ok a => simp

theorem accepts_mapError {δ : Type u} (rename : ε → δ) {x : Except ε α} {a : α} :
    x.mapError rename = .ok a ↔ x = .ok a := by
  constructor
  · intro h
    cases x with
    | error e => simp [Except.mapError] at h
    | ok b => simpa [Except.mapError] using h
  · rintro rfl
    rfl

def Agree (x y : Except ε α) : Prop := ∀ a, x = .ok a ↔ y = .ok a

namespace Agree

theorem refl (x : Except ε α) : Agree x x := fun _ => Iff.rfl

theorem symm {x y : Except ε α} (h : Agree x y) : Agree y x := fun a => (h a).symm

theorem trans {x y z : Except ε α} (h : Agree x y) (h' : Agree y z) : Agree x z :=
  fun a => (h a).trans (h' a)

theorem bind {x y : Except ε α} {f g : α → Except ε β} (h : Agree x y)
    (hf : ∀ a, x = .ok a → Agree (f a) (g a)) : Agree (x >>= f) (y >>= g) := by
  intro b
  rw [bind_eq_ok, bind_eq_ok]
  constructor
  · rintro ⟨a, hx, hb⟩
    exact ⟨a, (h a).mp hx, (hf a hx b).mp hb⟩
  · rintro ⟨a, hy, hb⟩
    have hx := (h a).mpr hy
    exact ⟨a, hx, (hf a hx b).mpr hb⟩

theorem toOption_eq {x y : Except ε α} (h : Agree x y) : x.toOption = y.toOption := by
  cases x with
  | ok a =>
    have hy := (h a).mp rfl
    rw [hy]
  | error e =>
    cases y with
    | ok b => exact absurd ((h b).mpr rfl) (by simp)
    | error e' => rfl

end Agree

theorem foldlM_snoc {σ : Type u} {ι : Type v} (f : σ → ι → Except ε σ) (s : σ) (l : List ι) (x : ι) :
    (l ++ [x]).foldlM f s = l.foldlM f s >>= fun t => f t x := by
  simp [List.foldlM_append]

theorem foldlM_invariant {σ : Type u} {ι : Type v} {f : σ → ι → Except ε σ} (P : σ → Prop)
    {l : List ι} (step : ∀ s, ∀ x ∈ l, ∀ t, P s → f s x = .ok t → P t) {s t : σ}
    (hs : P s) (h : l.foldlM f s = .ok t) : P t := by
  induction l generalizing s with
  | nil =>
    cases h
    exact hs
  | cons x l ih =>
    rw [List.foldlM_cons, bind_eq_ok] at h
    obtain ⟨mid, hmid, hrest⟩ := h
    exact ih (fun s y hy => step s y (List.mem_cons_of_mem _ hy))
      (step s x (List.mem_cons_self ..) mid hs hmid) hrest

theorem foldlM_total {σ : Type u} {ι : Type v} {f : σ → ι → Except ε σ}
    (each : ∀ s x, ∃ t, f s x = .ok t) (l : List ι) (s : σ) : ∃ t, l.foldlM f s = .ok t := by
  induction l generalizing s with
  | nil => exact ⟨s, rfl⟩
  | cons x l ih =>
    obtain ⟨mid, hmid⟩ := each s x
    obtain ⟨t, ht⟩ := ih mid
    exact ⟨t, by rw [List.foldlM_cons, hmid, bind_ok, ht]⟩

theorem foldlM_simulation {σ τ : Type u} {ι : Type v} {f : σ → ι → Except ε σ}
    {g : τ → ι → Except ε τ} (R : σ → τ → Prop) {l : List ι}
    (step : ∀ s t, ∀ x ∈ l, ∀ s', R s t → f s x = .ok s' → ∃ t', g t x = .ok t' ∧ R s' t')
    {s s' : σ} {t : τ} (hR : R s t) (h : l.foldlM f s = .ok s') :
    ∃ t', l.foldlM g t = .ok t' ∧ R s' t' := by
  induction l generalizing s t with
  | nil =>
    cases h
    exact ⟨t, rfl, hR⟩
  | cons x l ih =>
    rw [List.foldlM_cons, bind_eq_ok] at h
    obtain ⟨mid, hmid, hrest⟩ := h
    obtain ⟨mid', hmid', hR'⟩ := step s t x (List.mem_cons_self ..) mid hR hmid
    obtain ⟨t', ht', hR''⟩ := ih (fun s t y hy => step s t y (List.mem_cons_of_mem _ hy)) hR' hrest
    exact ⟨t', by rw [List.foldlM_cons, hmid', bind_ok, ht'], hR''⟩

theorem foldlM_congr {σ : Type u} {ι : Type v} {f g : σ → ι → Except ε σ} {l : List ι}
    (same : ∀ s, ∀ x ∈ l, f s x = g s x) (s : σ) : l.foldlM f s = l.foldlM g s := by
  induction l generalizing s with
  | nil => rfl
  | cons x l ih =>
    rw [List.foldlM_cons, List.foldlM_cons, same s x (List.mem_cons_self ..)]
    congr 1
    funext t
    exact ih (fun s y hy => same s y (List.mem_cons_of_mem _ hy)) t

theorem foldlM_accepts_mapError {σ δ : Type u} {ι : Type v} {f : σ → ι → Except ε σ}
    (rename : ι → ε → δ) {l : List ι} {s t : σ} :
    l.foldlM (fun s x => (f s x).mapError (rename x)) s = .ok t ↔ l.foldlM f s = .ok t := by
  induction l generalizing s with
  | nil => exact ⟨fun h => by cases h; rfl, fun h => by cases h; rfl⟩
  | cons x l ih => simp only [List.foldlM_cons, bind_eq_ok, accepts_mapError, ih]

end Checked
