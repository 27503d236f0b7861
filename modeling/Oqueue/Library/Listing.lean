import Oqueue.Library.Checked

/-!
# Walks over a sorted listing

A listing names keys in order, strictly after a cursor, up to a limit. A walk
asks for as many keys as it still wants items, keeps what it can see of them, and
goes on from the last key it was given. Neither the pages nor the keys it cannot
see show in what it finds.
-/

namespace Listing

open Checked

universe u v
variable {κ : Type u} {ε α : Type v}

section
variable [LT κ] [DecidableLT κ]

def after (keys : List κ) (cursor : Option κ) : List κ :=
  keys.filter fun key => cursor.all fun last => decide (last < key)

def list (keys : List κ) (cursor : Option κ) (limit : Nat) : List κ := (after keys cursor).take limit

end

/-- Keeps what is seen of a page's keys, up to a limit. -/
def collect (see : κ → Except ε (Option α)) (limit : Nat) : List κ → List α → Except ε (List α)
  | [], found => .ok found
  | key :: keys, found => do
    match ← see key with
    | none => collect see limit keys found
    | some item =>
      if (found ++ [item]).length = limit then return found ++ [item]
      else collect see limit keys (found ++ [item])

/-- One page after another. A page that came back short ends a walk that takes it for
the last one; a walk that ran out of pages to read has no result. -/
def walk (page : Option κ → Nat → List κ) (see : κ → Except ε (Option α)) (stopsShort : Bool)
    (limit : Nat) : Nat → Option κ → List α → Option (Except ε (List α))
  | 0, _, _ => none
  | fuel + 1, cursor, found =>
    if found.length < limit then
      let keys := page cursor (limit - found.length)
      match keys.getLast? with
      | none => some (.ok found)
      | some last =>
        match collect see limit keys found with
        | .error e => some (.error e)
        | .ok more =>
          if more.length = limit then some (.ok more)
          else if stopsShort && decide (keys.length < limit - found.length) then some (.ok more)
          else walk page see stopsShort limit fuel (some last) more
    else some (.ok found)

variable {see : κ → Except ε (Option α)} {limit : Nat}

theorem collect_cons (key : κ) (keys : List κ) (found : List α) :
    collect see limit (key :: keys) found = see key >>= fun item => item.elim
      (collect see limit keys found) fun item =>
        if (found ++ [item]).length = limit then .ok (found ++ [item])
        else collect see limit keys (found ++ [item]) := by
  rw [collect]
  congr 1
  funext item
  cases item <;> rfl

theorem collect_append (keys more : List κ) {found : List α} (wanted : found.length < limit) :
    collect see limit (keys ++ more) found = collect see limit keys found >>= fun found =>
      if found.length = limit then .ok found else collect see limit more found := by
  induction keys generalizing found with
  | nil => exact (if_neg wanted.ne).symm
  | cons key keys ih =>
    rw [List.cons_append, collect_cons, collect_cons, bind_assoc]
    congr 1
    funext item
    cases item with
    | none => exact ih wanted
    | some item =>
      rw [Option.elim_some, Option.elim_some]
      by_cases filled : (found ++ [item]).length = limit
      · rw [if_pos filled, if_pos filled, bind_ok, if_pos filled]
      · rw [if_neg filled, if_neg filled]
        refine ih (Nat.lt_of_le_of_ne ?_ filled)
        rw [List.length_append, List.length_singleton]
        exact wanted

theorem collect_length_le {keys : List κ} {found more : List α} (wanted : found.length < limit)
    (h : collect see limit keys found = .ok more) : more.length ≤ limit := by
  induction keys generalizing found with
  | nil =>
    cases h
    exact wanted.le
  | cons key keys ih =>
    rw [collect_cons] at h
    obtain ⟨item, -, h⟩ := bind_eq_ok.mp h
    cases item with
    | none => exact ih wanted h
    | some item =>
      rw [Option.elim_some] at h
      by_cases filled : (found ++ [item]).length = limit
      · rw [if_pos filled] at h
        cases h
        exact filled.le
      · rw [if_neg filled] at h
        refine ih (Nat.lt_of_le_of_ne ?_ filled) h
        rw [List.length_append, List.length_singleton]
        exact wanted

/-- What is found when every key can be seen or passed over. -/
theorem collect_eq_ok {seen : κ → Option α} {keys : List κ}
    (sees : ∀ key ∈ keys, see key = .ok (seen key)) {found : List α} (wanted : found.length < limit) :
    collect see limit keys found =
      .ok (found ++ (keys.filterMap seen).take (limit - found.length)) := by
  induction keys generalizing found with
  | nil => simp [collect]
  | cons key keys ih =>
    have later : ∀ key ∈ keys, see key = .ok (seen key) :=
      fun k hk => sees k (List.mem_cons_of_mem _ hk)
    rw [collect_cons, sees key (List.mem_cons_self ..), bind_ok]
    cases shown : seen key with
    | none =>
      rw [List.filterMap_cons_none shown]
      exact ih later wanted
    | some item =>
      have one : limit - found.length = (limit - (found ++ [item]).length) + 1 := by
        rw [List.length_append, List.length_singleton]
        omega
      have appended : found ++ (item :: keys.filterMap seen).take (limit - found.length) =
          (found ++ [item]) ++ (keys.filterMap seen).take (limit - (found ++ [item]).length) := by
        rw [one, List.take_succ_cons, List.append_assoc]
        rfl
      rw [List.filterMap_cons_some shown, appended, Option.elim_some]
      by_cases filled : (found ++ [item]).length = limit
      · rw [if_pos filled, filled, Nat.sub_self, List.take_zero, List.append_nil]
      · rw [if_neg filled]
        refine ih later (Nat.lt_of_le_of_ne ?_ filled)
        rw [List.length_append, List.length_singleton]
        exact wanted

section
variable [LT κ] [DecidableLT κ] [Std.Asymm fun a b : κ => a < b] [IsTrans κ fun a b => a < b]

omit [DecidableLT κ] [Std.Asymm fun a b : κ => a < b] [IsTrans κ fun a b => a < b] in
theorem mem_after [DecidableLT κ] {keys : List κ} {cursor : Option κ} {key : κ} :
    key ∈ after keys cursor ↔ key ∈ keys ∧ ∀ last, cursor = some last → last < key := by
  rw [after, List.mem_filter]
  cases cursor with
  | none => simp
  | some last => simp

theorem after_last {keys page rest : List κ} {cursor : Option κ} {last : κ}
    (sorted : keys.Pairwise fun a b => a < b) (ahead : after keys cursor = page ++ rest)
    (ends : page.getLast? = some last) : after keys (some last) = rest := by
  have reached : last ∈ after keys cursor := ahead ▸ List.mem_append_left _ (List.mem_of_getLast? ends)
  have again : after keys (some last) = (after keys cursor).filter fun key => decide (last < key) := by
    unfold after
    rw [List.filter_filter]
    refine List.filter_congr fun key _ => ?_
    cases cursor with
    | none => simp
    | some before =>
      have passed : before < last := (mem_after.mp reached).2 before rfl
      simp only [Option.all_some, ← Bool.decide_and, decide_eq_decide]
      exact ⟨fun beyond => ⟨beyond, IsTrans.trans _ _ _ passed beyond⟩, And.left⟩
  have ordered : (page ++ rest).Pairwise fun a b => a < b := ahead ▸ sorted.filter _
  obtain ⟨front, rfl⟩ := List.getLast?_eq_some_iff.mp ends
  obtain ⟨inPage, -, between⟩ := List.pairwise_append.mp ordered
  have dropped : (front ++ [last]).filter (fun key => decide (last < key)) = [] := by
    rw [List.filter_eq_nil_iff]
    intro key hkey
    rw [decide_eq_true_eq]
    rcases List.mem_append.mp hkey with before | same
    · exact Std.Asymm.asymm _ _ ((List.pairwise_append.mp inPage).2.2 key before last
        (List.mem_singleton_self _))
    · rw [List.mem_singleton.mp same]
      exact fun self => Std.Asymm.asymm _ _ self self
  have kept : rest.filter (fun key => decide (last < key)) = rest := by
    rw [List.filter_eq_self]
    intro key hkey
    rw [decide_eq_true_eq]
    exact between last (List.mem_append_right _ (List.mem_singleton_self _)) key hkey
  rw [again, ahead, List.filter_append, dropped, kept, List.nil_append]

/-- The pages do not show in what a walk finds. -/
theorem walk_eq {keys : List κ} (sorted : keys.Pairwise fun a b => a < b) {stopsShort : Bool}
    {fuel : Nat} {cursor : Option κ} (enough : (after keys cursor).length < fuel) {found : List α}
    (wanted : found.length < limit) :
    walk (list keys) see stopsShort limit fuel cursor found =
      some (collect see limit (after keys cursor) found) := by
  induction fuel generalizing cursor found with
  | zero => exact absurd enough (Nat.not_lt_zero _)
  | succ fuel ih =>
    obtain ⟨page, hpage⟩ : ∃ page, list keys cursor (limit - found.length) = page := ⟨_, rfl⟩
    obtain ⟨rest, hrest⟩ : ∃ rest, (after keys cursor).drop (limit - found.length) = rest := ⟨_, rfl⟩
    have split : after keys cursor = page ++ rest := by
      rw [← hpage, ← hrest, list, List.take_append_drop]
    have size : page.length = min (limit - found.length) (after keys cursor).length := by
      rw [← hpage, list, List.length_take]
    have left : rest.length = (after keys cursor).length - (limit - found.length) := by
      rw [← hrest, List.length_drop]
    rw [walk, if_pos wanted, hpage, split, collect_append page rest wanted]
    dsimp only
    cases ends : page.getLast? with
    | none =>
      have empty := List.getLast?_eq_none_iff.mp ends
      have none : rest = [] := by
        rw [empty, List.length_nil] at size
        exact List.eq_nil_of_length_eq_zero (by omega)
      rw [empty, none]
      exact congrArg some (if_neg wanted.ne).symm
    | some last =>
      have next : after keys (some last) = rest := after_last sorted split ends
      have some_ := List.length_pos_of_mem (List.mem_of_getLast? ends)
      cases seen : collect see limit page found with
      | error e => rfl
      | ok more =>
        rw [bind_ok]
        dsimp only
        by_cases filled : more.length = limit
        · rw [if_pos filled, if_pos filled]
        · rw [if_neg filled, if_neg filled]
          by_cases short : (stopsShort && decide (page.length < limit - found.length)) = true
          · have short' := of_decide_eq_true (Bool.and_eq_true_iff.mp short).2
            have none : rest = [] := List.eq_nil_of_length_eq_zero (by omega)
            rw [if_pos short, none]
            rfl
          · have still : more.length < limit :=
              Nat.lt_of_le_of_ne (collect_length_le wanted seen) filled
            rw [if_neg short, ih (by rw [next]; omega) still, next]

end

end Listing
