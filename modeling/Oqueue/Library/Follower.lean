import Mathlib.Data.List.Basic
import Mathlib.Tactic.Common

/-!
# Following an append-only line

A line holds entries whose versions rise strictly. A follower has folded a prefix
of it and reads the rest in pages, each of them cut from whatever prefix of the
line the read saw. What it is missing from a page always continues what it holds.
-/

namespace Follower

variable {ι : Type*} (version : ι → Nat)

def Ascending (line : List ι) : Prop := line.Pairwise fun a b => version a < version b

def upTo (line : List ι) (last : Nat) : List ι :=
  line.filter fun entry => decide (version entry ≤ last)

/-- A page of at most `length` entries, from `start` on. -/
def page (line : List ι) (start length : Nat) : List ι :=
  (line.filter fun entry => decide (start ≤ version entry)).take length

/-- What a follower that holds everything up to `held` takes from a page. -/
def missing (held : Option Nat) (entries : List ι) : List ι :=
  entries.filter fun entry => held.elim true fun held => decide (held < version entry)

/-- The line takes an entry whose version is above its last, and no other. -/
def Takes (line : List ι) (entry : ι) : Prop :=
  ∀ last ∈ line.getLast?, version last < version entry

instance (line : List ι) (entry : ι) : Decidable (Takes version line entry) :=
  match h : line.getLast? with
  | none => isTrue fun last hlast => by rw [h] at hlast; cases hlast
  | some last => decidable_of_iff (version last < version entry) (by simp [Takes, h])

/-- Offers an entry to the line, which keeps what its order lets it. -/
def offer (line : List ι) (entry : ι) : List ι :=
  if Takes version line entry then line ++ [entry] else line

def grow (line : List ι) (entries : List ι) : List ι := entries.foldl (offer version) line

variable {version} {line folded rest : List ι}

theorem Ascending.append (ascending : Ascending version (folded ++ rest)) :
    Ascending version folded ∧ Ascending version rest ∧
      ∀ a ∈ folded, ∀ b ∈ rest, version a < version b :=
  List.pairwise_append.mp ascending

theorem Ascending.of_prefix (ascending : Ascending version line) (isPrefix : folded <+: line) :
    Ascending version folded :=
  ascending.sublist isPrefix.sublist

theorem Ascending.le_last (ascending : Ascending version line) {last : ι}
    (h : line.getLast? = some last) : ∀ entry ∈ line, version entry ≤ version last := by
  obtain ⟨front, rfl⟩ := List.getLast?_eq_some_iff.mp h
  obtain ⟨-, -, across⟩ := ascending.append
  intro entry hentry
  rcases List.mem_append.mp hentry with hentry | hentry
  · exact Nat.le_of_lt (across entry hentry last (List.mem_singleton_self last))
  · rw [List.mem_singleton] at hentry
    exact Nat.le_of_eq (congrArg version hentry)

theorem Ascending.snoc (ascending : Ascending version line) {entry : ι}
    (takes : Takes version line entry) : Ascending version (line ++ [entry]) := by
  refine List.pairwise_append.mpr ⟨ascending, List.pairwise_singleton _ _, ?_⟩
  intro a ha b hb
  rw [List.mem_singleton] at hb
  subst hb
  cases hlast : line.getLast? with
  | none =>
    rw [List.getLast?_eq_none_iff] at hlast
    rw [hlast] at ha
    cases ha
  | some last =>
    exact Nat.lt_of_le_of_lt (ascending.le_last hlast a ha) (takes last hlast)

theorem prefix_offer (line : List ι) (entry : ι) : line <+: offer version line entry := by
  unfold offer
  split
  · exact List.prefix_append ..
  · exact List.prefix_refl _

theorem Ascending.offer (ascending : Ascending version line) (entry : ι) :
    Ascending version (offer version line entry) := by
  unfold Follower.offer
  split
  · exact ascending.snoc (by assumption)
  · exact ascending

theorem Ascending.grow (ascending : Ascending version line) (entries : List ι) :
    Ascending version (grow version line entries) :=
  List.foldlRecOn (motive := Ascending version) entries _ ascending
    fun _ held entry _ => held.offer entry

theorem prefix_grow (line entries : List ι) : line <+: grow version line entries :=
  List.foldlRecOn (motive := fun grown => line <+: grown) entries _ (List.prefix_refl line)
    fun _ held entry _ => held.trans (prefix_offer _ entry)

theorem Ascending.prefix_eq_upTo (ascending : Ascending version line) (isPrefix : folded <+: line)
    {last : ι} (h : folded.getLast? = some last) : folded = upTo version line (version last) := by
  obtain ⟨rest, rfl⟩ := isPrefix
  obtain ⟨below, -, across⟩ := ascending.append
  unfold upTo
  have kept : folded.filter (fun e => decide (version e ≤ version last)) = folded := by
    rw [List.filter_eq_self]
    intro e he
    simpa using below.le_last h e he
  have dropped : rest.filter (fun e => decide (version e ≤ version last)) = [] := by
    rw [List.filter_eq_nil_iff]
    intro e he
    simpa using across last (List.mem_of_getLast? h) e he
  rw [List.filter_append, kept, dropped, List.append_nil]

/-- What a page holds, when everything not folded yet is from `start` on: some of what
is folded, then a piece of the rest that begins where the rest does. -/
theorem page_cut (folded : List ι) {start : Nat} (unread : ∀ e ∈ rest, start ≤ version e) (seen length : Nat) :
    ∃ again more, page version ((folded ++ rest).take seen) start length = again ++ more ∧
      (∀ e ∈ again, e ∈ folded ∧ start ≤ version e) ∧ more <+: rest := by
  unfold page
  rw [List.take_append, List.filter_append]
  have kept : (rest.take (seen - folded.length)).filter (fun e => decide (start ≤ version e)) =
      rest.take (seen - folded.length) := by
    rw [List.filter_eq_self]
    intro e he
    simpa using unread e (List.mem_of_mem_take he)
  rw [kept, List.take_append]
  refine ⟨_, _, rfl, ?_, (List.take_prefix ..).trans (List.take_prefix ..)⟩
  intro e he
  have read := List.mem_filter.mp (List.mem_of_mem_take he)
  exact ⟨List.mem_of_mem_take read.1, by simpa using read.2⟩

theorem page_next {start : Nat} (read : ∀ e ∈ folded, version e < start)
    (unread : ∀ e ∈ rest, start ≤ version e) (seen length : Nat) :
    page version ((folded ++ rest).take seen) start length <+: rest := by
  obtain ⟨again, more, cut, repeated, isPrefix⟩ := page_cut folded unread seen length
  have none : again = [] := by
    apply List.eq_nil_iff_forall_not_mem.mpr
    intro e he
    obtain ⟨held, from_⟩ := repeated e he
    exact absurd (read e held) (Nat.not_lt.mpr from_)
  rw [cut, none, List.nil_append]
  exact isPrefix

/-- Of entries some of which are folded and the others not, the others are missing. -/
theorem Ascending.missing_append (ascending : Ascending version (folded ++ rest))
    {again more : List ι} (held : ∀ e ∈ again, e ∈ folded) (new : ∀ e ∈ more, e ∈ rest) :
    missing version (folded.getLast?.map version) (again ++ more) = more := by
  obtain ⟨below, -, across⟩ := ascending.append
  unfold missing
  rw [List.filter_append]
  cases hlast : folded.getLast? with
  | none =>
    rw [List.getLast?_eq_none_iff] at hlast
    rw [hlast] at held
    have empty : again = [] := List.eq_nil_iff_forall_not_mem.mpr fun e he => nomatch held e he
    simp [empty]
  | some last =>
    have dropped : again.filter (fun e => decide (version last < version e)) = [] := by
      rw [List.filter_eq_nil_iff]
      intro e he
      simpa using below.le_last hlast e (held e he)
    have kept : more.filter (fun e => decide (version last < version e)) = more := by
      rw [List.filter_eq_self]
      intro e he
      simpa using across last (List.mem_of_getLast? hlast) e (new e he)
    simp only [Option.map_some, Option.elim_some]
    rw [dropped, kept, List.nil_append]

theorem Ascending.missing_next (ascending : Ascending version (folded ++ rest)) {start : Nat}
    (unread : ∀ e ∈ rest, start ≤ version e) (seen length : Nat) :
    ∃ more, missing version (folded.getLast?.map version)
        (page version ((folded ++ rest).take seen) start length) = more ∧ more <+: rest ∧
      ∀ e ∈ page version ((folded ++ rest).take seen) start length, e ∈ folded ++ more := by
  obtain ⟨again, more, cut, repeated, isPrefix⟩ := page_cut folded unread seen length
  refine ⟨more, ?_, isPrefix, ?_⟩
  · rw [cut]
    exact ascending.missing_append (fun e he => (repeated e he).1) fun e he => isPrefix.subset he
  · intro e he
    rw [cut] at he
    rcases List.mem_append.mp he with he | he
    · exact List.mem_append_left _ (repeated e he).1
    · exact List.mem_append_right _ he

theorem page_rest {start : Nat} (read : ∀ e ∈ folded, version e < start)
    (unread : ∀ e ∈ rest, start ≤ version e) (length : Nat) :
    page version (folded ++ rest) start length = rest.take length := by
  have dropped : folded.filter (fun e => decide (start ≤ version e)) = [] := by
    rw [List.filter_eq_nil_iff]
    intro e he
    simpa using read e he
  have kept : rest.filter (fun e => decide (start ≤ version e)) = rest := by
    rw [List.filter_eq_self]
    intro e he
    simpa using unread e he
  unfold page
  rw [List.filter_append, dropped, kept, List.nil_append]

theorem Ascending.beyond (ascending : Ascending version (folded ++ rest)) {entry : ι}
    (h : entry ∈ folded) : ∀ e ∈ rest, version entry + 1 ≤ version e := by
  obtain ⟨-, -, across⟩ := ascending.append
  exact fun e he => across entry h e he

end Follower
