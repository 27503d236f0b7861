import Mathlib

/-!
# Keyed tables and the loops over them

A table is a `Finmap` where its iteration order cannot be seen, and an `AList`
where a loop walks it. Each loop here visits every key once and touches only
that key's slot, so what it leaves behind is read off one key at a time.
-/

namespace Table

universe u v w
variable {κ : Type u} [DecidableEq κ] {α : Type v} {β : Type w}

theorem lookup_insert_eq (m : Finmap fun _ : κ => α) (k k' : κ) (a : α) :
    (m.insert k a).lookup k' = if k' = k then some a else m.lookup k' := by
  split
  · rename_i same
    subst same
    exact Finmap.lookup_insert m
  · rename_i other
    exact Finmap.lookup_insert_of_ne m other

theorem lookup_erase_eq (m : Finmap fun _ : κ => α) (k k' : κ) :
    (m.erase k).lookup k' = if k' = k then none else m.lookup k' := by
  split
  · rename_i same
    subst same
    exact Finmap.lookup_erase _ m
  · rename_i other
    exact Finmap.lookup_erase_ne other

theorem alist_lookup_insert_eq (m : AList fun _ : κ => α) (k k' : κ) (a : α) :
    (m.insert k a).lookup k' = if k' = k then some a else m.lookup k' := by
  split
  · rename_i same
    subst same
    exact AList.lookup_insert m
  · rename_i other
    exact AList.lookup_insert_ne other

def total (f : α → Nat) (m : Finmap fun _ : κ => α) : Nat :=
  (m.entries.map fun slot => f slot.2).sum

omit [DecidableEq κ] in
@[simp] theorem total_empty (f : α → Nat) : total f (∅ : Finmap fun _ : κ => α) = 0 := rfl

theorem total_insert_of_notMem (f : α → Nat) {m : Finmap fun _ : κ => α} {k : κ} (a : α)
    (absent : k ∉ m) : total f (m.insert k a) = total f m + f a := by
  unfold total
  rw [Finmap.entries_insert_of_notMem absent, Multiset.map_cons, Multiset.sum_cons, Nat.add_comm]

theorem insert_erase_self (m : Finmap fun _ : κ => α) (k : κ) (a : α) :
    (m.erase k).insert k a = m.insert k a := by
  apply Finmap.ext_lookup
  intro k'
  rw [lookup_insert_eq, lookup_insert_eq, lookup_erase_eq]
  split <;> rfl

theorem total_erase (f : α → Nat) (m : Finmap fun _ : κ => α) (k : κ) :
    total f (m.erase k) + (m.lookup k).elim 0 f = total f m := by
  cases h : m.lookup k with
  | none =>
    have same : m.erase k = m := by
      apply Finmap.ext_lookup
      intro k'
      rw [lookup_erase_eq]
      split
      · rename_i eq
        rw [eq, h]
      · rfl
    simp [same]
  | some a =>
    have restored : (m.erase k).insert k a = m := by
      apply Finmap.ext_lookup
      intro k'
      rw [lookup_insert_eq, lookup_erase_eq]
      split
      · rename_i eq
        rw [eq, h]
      · rfl
    rw [Option.elim_some, ← total_insert_of_notMem f a Finmap.notMem_erase_self, restored]

theorem total_insert (f : α → Nat) (m : Finmap fun _ : κ => α) (k : κ) (a : α) :
    total f (m.insert k a) + (m.lookup k).elim 0 f = total f m + f a := by
  rw [← insert_erase_self, total_insert_of_notMem f a Finmap.notMem_erase_self,
    ← total_erase f m k]
  omega

theorem le_total (f : α → Nat) {m : Finmap fun _ : κ => α} {k : κ} {a : α}
    (h : m.lookup k = some a) : f a ≤ total f m := by
  have split := total_erase f m k
  rw [h, Option.elim_some] at split
  omega

/-- A loop whose body rewrites the visited key's slot rewrites exactly the visited keys. -/
theorem lookup_foldl {σ : Type*} (table : σ → Finmap fun _ : κ => β)
    (body : σ → (Sigma fun _ : κ => α) → σ) (slot : κ → α → Option β → Option β)
    (step : ∀ s e k, (table (body s e)).lookup k =
      if k = e.1 then slot e.1 e.2 ((table s).lookup k) else (table s).lookup k)
    (l : List (Sigma fun _ : κ => α)) (nodup : l.NodupKeys) (s : σ) (k : κ) :
    (table (l.foldl body s)).lookup k =
      (l.dlookup k).elim ((table s).lookup k) (fun a => slot k a ((table s).lookup k)) := by
  induction l generalizing s with
  | nil => rfl
  | cons e rest ih =>
    obtain ⟨key, a⟩ := e
    have fresh : key ∉ rest.keys := (List.nodupKeys_cons.mp nodup).1
    rw [List.foldl_cons, ih (List.nodupKeys_cons.mp nodup).2, step]
    by_cases same : k = key
    · subst same
      have unseen : rest.dlookup k = none := List.dlookup_eq_none.mpr fresh
      simp [unseen, List.dlookup_cons_eq]
    · have skipped : List.dlookup k ((⟨key, a⟩ : Sigma fun _ : κ => α) :: rest) = rest.dlookup k :=
        List.dlookup_cons_ne rest ⟨key, a⟩ same
      simp [skipped, same]

theorem foldlM_insert_ok {ε : Type (max u v)} (visit : (Sigma fun _ : κ => α) → Except ε α)
    (result : (Sigma fun _ : κ => α) → α) (l : List (Sigma fun _ : κ => α))
    (accepted : ∀ e ∈ l, visit e = .ok (result e)) (m : AList fun _ : κ => α) :
    l.foldlM (fun (acc : AList fun _ : κ => α) e => (visit e).map fun a => acc.insert e.1 a) m =
      .ok (l.foldl (fun acc e => acc.insert e.1 (result e)) m) := by
  induction l generalizing m with
  | nil => rfl
  | cons e rest ih =>
    rw [List.foldlM_cons, accepted e (List.mem_cons_self ..)]
    exact ih (fun e' he' => accepted e' (List.mem_cons_of_mem _ he')) _

theorem alist_lookup_foldl_insert (result : (Sigma fun _ : κ => α) → α)
    (l : List (Sigma fun _ : κ => α)) (nodup : l.NodupKeys) (m : AList fun _ : κ => α) (k : κ) :
    (l.foldl (fun acc e => acc.insert e.1 (result e)) m).lookup k =
      (l.dlookup k).elim (m.lookup k) (fun a => some (result ⟨k, a⟩)) := by
  induction l generalizing m with
  | nil => rfl
  | cons e rest ih =>
    obtain ⟨key, a⟩ := e
    have fresh : key ∉ rest.keys := (List.nodupKeys_cons.mp nodup).1
    rw [List.foldl_cons, ih (List.nodupKeys_cons.mp nodup).2, alist_lookup_insert_eq]
    by_cases same : k = key
    · subst same
      have unseen : rest.dlookup k = none := List.dlookup_eq_none.mpr fresh
      simp [unseen, List.dlookup_cons_eq]
    · have skipped : List.dlookup k ((⟨key, a⟩ : Sigma fun _ : κ => α) :: rest) = rest.dlookup k :=
        List.dlookup_cons_ne rest ⟨key, a⟩ same
      simp [skipped, same]

end Table
