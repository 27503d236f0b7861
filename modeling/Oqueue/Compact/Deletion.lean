import Oqueue.Compact.Lifecycle

/-!
# What is deleted had been unnamed for the delay

Over any run of releases and sweeps, whatever the index counts, the clock reads
and the store answers. A key waits in one place only, from its release to its
deletion, and what a place remembers of it is part of the run's own history.
-/

namespace Oqueue.Lifecycle

inductive Event where
  | release (object : ObjectKey)
  | swept (sweep : Sweep)

def step (self : Lifecycle) : Event → Lifecycle
  | .release object => self.release object
  | .swept s => (self.sweep s).1

/-- The keys an event passes to the store's delete. -/
def requested (self : Lifecycle) : Event → List ObjectKey
  | .release _ => []
  | .swept s => (self.sweep s).2.requests.flatten

def leftover (self : Lifecycle) (outstanding : Finset ObjectKey) : Event → Finset ObjectKey
  | .release object => insert object outstanding
  | .swept s => outstanding \ (self.sweep s).2.deleted.toFinset

/-- A lifecycle after a run, and the keys it released and has not deleted. -/
def after (delayMs : Int) (history : List Event) : Lifecycle × Finset ObjectKey :=
  history.foldl (fun at_ event => (at_.1.step event, at_.1.leftover at_.2 event))
    ({ delayMs := delayMs }, ∅)

/-- A key was released, and since the sweep its clock was started at, no sweep has
seen it named. -/
def Waits (key : ObjectKey) : Option Nat → List Event → Prop
  | none, history => .release key ∈ history
  | some since, history => ∃ before between later first,
      history = before ++ .release key :: (between ++ .swept first :: later) ∧
        first.references key = 0 ∧ first.now = since ∧
          ∀ s, .swept s ∈ later → s.references key = 0

/-- A key was released, and two sweeps the delay apart saw it unnamed, and so did
every sweep between them. -/
def Waited (delayMs : Int) (key : ObjectKey) (history : List Event) : Prop :=
  ∃ before between meanwhile later first second,
    history = before ++ .release key ::
      (between ++ .swept first :: (meanwhile ++ .swept second :: later)) ∧
    first.references key = 0 ∧ second.references key = 0 ∧
    (∀ s, .swept s ∈ meanwhile → s.references key = 0) ∧
    delayMs ≤ (second.now : Int) - first.now

section
variable {delayMs : Int} {key : ObjectKey} {history : List Event}

theorem Waits.released {since : Option Nat} (h : Waits key since history) :
    .release key ∈ history := by
  cases since with
  | none => exact h
  | some since =>
    obtain ⟨before, between, later, first, rfl, -⟩ := h
    simp

theorem Waits.release {since : Option Nat} (h : Waits key since history) (object : ObjectKey) :
    Waits key since (history ++ [.release object]) := by
  cases since with
  | none => exact List.mem_append_left _ h
  | some since =>
    obtain ⟨before, between, later, first, rfl, zero, started, quiet⟩ := h
    refine ⟨before, between, later ++ [.release object], first, by simp, zero, started, ?_⟩
    intro s hs
    rcases List.mem_append.mp hs with hs | hs
    · exact quiet s hs
    · simp at hs

/-- A sweep restarts the clock, starts it, or leaves it running. -/
theorem Waits.watch {since : Option Nat} (h : Waits key since history) (s : Sweep) :
    Waits key (watch (s.references key) s.now since) (history ++ [.swept s]) := by
  have released := h.released
  unfold Lifecycle.watch
  by_cases named : 0 < s.references key
  · rw [if_pos named]
    exact List.mem_append_left _ released
  · rw [if_neg named]
    have zero : s.references key = 0 := by omega
    cases since with
    | none =>
      obtain ⟨before, between, rfl⟩ := List.append_of_mem released
      exact ⟨before, between, [], s, by simp, zero, rfl, by simp⟩
    | some since =>
      obtain ⟨before, between, later, first, rfl, first_zero, started, quiet⟩ := h
      refine ⟨before, between, later ++ [.swept s], first, by simp, first_zero, started, ?_⟩
      intro s' hs
      rcases List.mem_append.mp hs with hs | hs
      · exact quiet s' hs
      · simp only [List.mem_singleton, Event.swept.injEq] at hs
        rw [hs]
        exact zero

theorem Waits.due {l : Lifecycle} (delay : l.delayMs = delayMs) {since : Option Nat}
    (h : Waits key since history) {s : Sweep} (due : l.isDue s key since = true) :
    Waited delayMs key (history ++ [.swept s]) := by
  unfold isDue at due
  simp only [Bool.and_eq_true, decide_eq_true_eq] at due
  obtain ⟨zero, clock⟩ := due
  cases since with
  | none => simp at clock
  | some since =>
    obtain ⟨before, between, later, first, rfl, first_zero, rfl, quiet⟩ := h
    simp only [Option.any_some, decide_eq_true_eq, delay] at clock
    exact ⟨before, between, later, [], first, s, by simp, first_zero, zero, quiet, clock⟩

theorem Waited.later (h : Waited delayMs key history) (event : Event) :
    Waited delayMs key (history ++ [event]) := by
  obtain ⟨before, between, meanwhile, later, first, second, rfl, rest⟩ := h
  exact ⟨before, between, meanwhile, later ++ [event], first, second, by simp, rest⟩

end

/-- One key, one place; `batch` is what a sweep has drained and not yet placed. -/
structure Inv (delayMs : Int) (history : List Event) (outstanding : Finset ObjectKey)
    (batch : List ObjectKey) (l : Lifecycle) : Prop where
  delay : l.delayMs = delayMs
  leaving : ∀ key, key ∈ l.leaving ↔ key ∈ batch ∨ key ∈ l.queue ∨ key ∈ l.quarantined
  nodup : (batch ++ (l.queue ++ l.quarantined)).Nodup
  apart : ∀ key ∈ l.logical, key ∉ l.leaving
  outstanding : ∀ key, key ∈ outstanding ↔ key ∈ l.logical ∨ key ∈ l.leaving
  waits : ∀ key since, l.logical.lookup key = some since → Waits key since history
  waited : ∀ key ∈ batch ++ l.queue, Waited delayMs key history

section
variable {delayMs : Int} {history : List Event} {outstanding : Finset ObjectKey}
  {batch : List ObjectKey} {l : Lifecycle}

theorem Inv.start (delayMs : Int) : Inv delayMs [] ∅ [] { delayMs := delayMs } where
  delay := rfl
  leaving := by simp
  nodup := by simp
  apart := by simp
  outstanding := by simp
  waits := by simp
  waited := by simp

theorem Inv.release (inv : Inv delayMs history outstanding [] l) (object : ObjectKey) :
    Inv delayMs (history ++ [.release object]) (insert object outstanding) [] (l.release object) := by
  have waits : ∀ key since, l.logical.lookup key = some since →
      Waits key since (history ++ [.release object]) :=
    fun key since held => (inv.waits key since held).release object
  have waited : ∀ key ∈ [] ++ l.queue, Waited delayMs key (history ++ [.release object]) :=
    fun key hkey => (inv.waited key hkey).later _
  have held : object ∈ l.logical ∨ object ∈ l.leaving →
      ∀ key, key ∈ insert object outstanding ↔ key ∈ l.logical ∨ key ∈ l.leaving := by
    intro there key
    rw [Finset.mem_insert, inv.outstanding]
    constructor
    · rintro (rfl | h)
      · exact there
      · exact h
    · exact .inr
  unfold Lifecycle.release
  by_cases leaves : object ∈ l.leaving
  · rw [if_pos leaves]
    exact ⟨inv.delay, inv.leaving, inv.nodup, inv.apart, held (.inr leaves), waits, waited⟩
  · rw [if_neg leaves]
    by_cases waiting : object ∈ l.logical
    · rw [if_pos waiting]
      exact ⟨inv.delay, inv.leaving, inv.nodup, inv.apart, held (.inl waiting), waits, waited⟩
    · rw [if_neg waiting]
      refine ⟨inv.delay, inv.leaving, inv.nodup, ?_, ?_, ?_, waited⟩
      · intro key hkey
        rcases (AList.mem_insert _).mp hkey with rfl | hkey
        · exact leaves
        · exact inv.apart key hkey
      · intro key
        rw [Finset.mem_insert, inv.outstanding, AList.mem_insert, or_assoc]
      · intro key since hlookup
        rw [Table.alist_lookup_insert_eq] at hlookup
        split at hlookup
        · rename_i same
          cases hlookup
          rw [same]
          exact List.mem_append_right _ (List.mem_singleton_self _)
        · exact waits key since hlookup

/-- The keys a sweep finds due, in key order. -/
def due (l : Lifecycle) (s : Sweep) : List ObjectKey :=
  ((l.logical.entries.filter fun e => l.isDue s e.1 e.2).map Sigma.fst).insertionSort
    fun a b => a.key ≤ b.key

theorem due_perm (l : Lifecycle) (s : Sweep) : (l.due s).Perm
    ((l.logical.entries.filter fun e => l.isDue s e.1 e.2).map Sigma.fst) :=
  List.perm_insertionSort _ _

theorem mem_due {s : Sweep} {key : ObjectKey} : key ∈ l.due s ↔
    ∃ since, l.logical.lookup key = some since ∧ l.isDue s key since = true := by
  rw [(due_perm l s).mem_iff, List.mem_map]
  constructor
  · rintro ⟨⟨_, since⟩, hmem, rfl⟩
    obtain ⟨hmem, isDue⟩ := List.mem_filter.mp hmem
    exact ⟨since, AList.mem_lookup_iff.mpr hmem, isDue⟩
  · rintro ⟨since, held, isDue⟩
    exact ⟨⟨key, since⟩, List.mem_filter.mpr ⟨AList.mem_lookup_iff.mp held, isDue⟩, rfl⟩

theorem due_nodup (l : Lifecycle) (s : Sweep) : (l.due s).Nodup := by
  rw [(due_perm l s).nodup_iff]
  exact List.NodupKeys.sublist List.filter_sublist l.logical.nodupKeys

theorem lookup_foldl_erase (keys : List ObjectKey) (m : AList fun _ : ObjectKey => Option Nat)
    (key : ObjectKey) : (keys.foldl (fun acc key => acc.erase key) m).lookup key =
      if key ∈ keys then none else m.lookup key := by
  induction keys generalizing m with
  | nil => simp
  | cons k rest ih =>
    rw [List.foldl_cons, ih]
    by_cases later : key ∈ rest
    · simp [later]
    · by_cases same : key = k
      · subst same
        simp [later]
      · simp [later, same]

theorem lookup_promote (l : Lifecycle) (s : Sweep) (key : ObjectKey) :
    (l.promote s).logical.lookup key = if key ∈ l.due s then none else
      (l.logical.lookup key).map (watch (s.references key) s.now) := by
  unfold promote
  dsimp only
  rw [lookup_foldl_erase, Table.alist_lookup_foldl_insert _ _ l.logical.nodupKeys]
  change (if key ∈ l.due s then none else (l.logical.lookup key).elim _ _) = _
  cases l.logical.lookup key <;> rfl

theorem mem_promote {s : Sweep} {key : ObjectKey} :
    key ∈ (l.promote s).logical ↔ key ∈ l.logical ∧ key ∉ l.due s := by
  rw [← AList.lookup_isSome, ← AList.lookup_isSome, lookup_promote]
  split
  · simp [*]
  · simp [*]

theorem Inv.promote (inv : Inv delayMs history outstanding [] l) (s : Sweep) :
    Inv delayMs (history ++ [.swept s]) outstanding [] (l.promote s) := by
  have leaves : ∀ key, key ∈ (l.promote s).leaving ↔ key ∈ l.leaving ∨ key ∈ l.due s := by
    intro key
    change key ∈ l.leaving ∪ (l.due s).toFinset ↔ _
    rw [Finset.mem_union, List.mem_toFinset]
  have queue : (l.promote s).queue = l.queue ++ l.due s := rfl
  have quarantined : (l.promote s).quarantined = l.quarantined := rfl
  have waiting : ∀ key ∈ l.due s, key ∈ l.logical := by
    intro key hkey
    obtain ⟨since, held, -⟩ := mem_due.mp hkey
    exact AList.lookup_isSome.mp (by rw [held]; rfl)
  refine ⟨inv.delay, ?_, ?_, ?_, ?_, ?_, ?_⟩
  · intro key
    rw [leaves, inv.leaving, queue, quarantined, List.mem_append]
    simp only [List.not_mem_nil, false_or]
    tauto
  · have apart : ∀ key ∈ l.due s, key ∉ l.queue ∧ key ∉ l.quarantined := by
      intro key hkey
      have away := inv.apart key (waiting key hkey)
      rw [inv.leaving] at away
      tauto
    have before := inv.nodup
    rw [List.nil_append, List.nodup_append'] at before
    rw [queue, quarantined, List.nil_append, List.nodup_append', List.nodup_append']
    refine ⟨⟨before.1, due_nodup l s, ?_⟩, before.2.1, ?_⟩
    · intro key inQueue isDue
      exact (apart key isDue).1 inQueue
    · intro key hkey inQuarantine
      rcases List.mem_append.mp hkey with hkey | hkey
      · exact before.2.2 hkey inQuarantine
      · exact (apart key hkey).2 inQuarantine
  · intro key hkey
    obtain ⟨held, notDue⟩ := mem_promote.mp hkey
    rw [leaves]
    rintro (gone | isDue)
    · exact inv.apart key held gone
    · exact notDue isDue
  · intro key
    rw [inv.outstanding, leaves, mem_promote]
    constructor
    · rintro (held | gone)
      · by_cases isDue : key ∈ l.due s
        · exact .inr (.inr isDue)
        · exact .inl ⟨held, isDue⟩
      · exact .inr (.inl gone)
    · rintro (⟨held, -⟩ | gone | isDue)
      · exact .inl held
      · exact .inr gone
      · exact .inl (waiting key isDue)
  · intro key since held
    rw [lookup_promote] at held
    split at held
    · cases held
    · obtain ⟨before, hbefore, rfl⟩ := Option.map_eq_some_iff.mp held
      exact (inv.waits key before hbefore).watch s
  · intro key hkey
    rw [List.nil_append, queue] at hkey
    rcases List.mem_append.mp hkey with hkey | hkey
    · exact (inv.waited key hkey).later _
    · obtain ⟨since, held, isDue⟩ := mem_due.mp hkey
      exact (inv.waits key since held).due inv.delay isDue

theorem Inv.drain (inv : Inv delayMs history outstanding [] l) (count : Nat) :
    Inv delayMs history outstanding (l.queue.take count)
      { l with queue := l.queue.drop count } := by
  have whole := List.take_append_drop count l.queue
  refine ⟨inv.delay, ?_, ?_, inv.apart, inv.outstanding, inv.waits, ?_⟩
  · intro key
    have parts : key ∈ l.queue ↔ key ∈ l.queue.take count ∨ key ∈ l.queue.drop count := by
      rw [← List.mem_append, whole]
    rw [inv.leaving, parts]
    simp only [List.not_mem_nil, false_or, or_assoc]
  · rw [← List.append_assoc, whole]
    exact inv.nodup
  · rw [whole]
    exact inv.waited

/-- A key in flight that the store deleted is nowhere. -/
theorem Inv.forget {key : ObjectKey} (inv : Inv delayMs history outstanding (key :: batch) l) :
    Inv delayMs history (outstanding.erase key) batch (l.forget key) := by
  have nodup := inv.nodup
  rw [List.cons_append, List.nodup_cons] at nodup
  have gone : key ∉ l.logical := by
    intro held
    exact inv.apart key held ((inv.leaving key).mpr (.inl (List.mem_cons_self ..)))
  refine ⟨inv.delay, ?_, nodup.2, ?_, ?_, inv.waits, ?_⟩
  · intro other
    change other ∈ l.leaving.erase key ↔ other ∈ batch ∨ other ∈ l.queue ∨ other ∈ l.quarantined
    rw [Finset.mem_erase, inv.leaving, List.mem_cons]
    constructor
    · rintro ⟨ne, (rfl | h) | h⟩
      · exact absurd rfl ne
      · exact .inl h
      · exact .inr h
    · intro h
      refine ⟨?_, ?_⟩
      · rintro rfl
        apply nodup.1
        simpa using h
      · rcases h with h | h
        · exact .inl (.inr h)
        · exact .inr h
  · intro other held left
    exact inv.apart other held (Finset.mem_of_mem_erase left)
  · intro other
    change other ∈ outstanding.erase key ↔ other ∈ l.logical ∨ other ∈ l.leaving.erase key
    rw [Finset.mem_erase, Finset.mem_erase, inv.outstanding]
    constructor
    · rintro ⟨ne, held | left⟩
      · exact .inl held
      · exact .inr ⟨ne, left⟩
    · rintro (held | ⟨ne, left⟩)
      · exact ⟨fun same => gone (same ▸ held), .inl held⟩
      · exact ⟨ne, .inr left⟩
  · intro other hother
    exact inv.waited other (List.mem_cons_of_mem _ hother)

/-- A key in flight that the store refused goes to one place. -/
theorem Inv.refuse {key : ObjectKey} (inv : Inv delayMs history outstanding (key :: batch) l)
    (report : SweepReport) :
    Inv delayMs history outstanding batch (l.refuse report key).1 ∧
      (l.refuse report key).2.deleted = report.deleted ∧
      (l.refuse report key).2.requests = report.requests := by
  have moved : (key :: batch ++ (l.queue ++ l.quarantined)).Perm
      (batch ++ (l.queue ++ l.quarantined ++ [key])) := by
    rw [List.cons_append, ← List.append_assoc batch (l.queue ++ l.quarantined)]
    exact (List.perm_append_singleton key _).symm
  unfold Lifecycle.refuse
  dsimp only
  split
  · refine ⟨⟨inv.delay, ?_, ?_, inv.apart, inv.outstanding, inv.waits, ?_⟩, rfl, rfl⟩
    · intro other
      rw [inv.leaving, List.mem_cons, List.mem_append, List.mem_singleton]
      tauto
    · have nodup := moved.nodup_iff.mp inv.nodup
      rw [List.append_assoc l.queue] at nodup
      exact nodup
    · exact fun other hother => inv.waited other (List.mem_cons_of_mem _ hother)
  · refine ⟨⟨inv.delay, ?_, ?_, inv.apart, inv.outstanding, inv.waits, ?_⟩, rfl, rfl⟩
    · intro other
      rw [inv.leaving, List.mem_cons, List.mem_append, List.mem_singleton]
      tauto
    · have swapped : (l.queue ++ l.quarantined ++ [key]).Perm
          (l.queue ++ [key] ++ l.quarantined) := by
        rw [List.append_assoc, List.append_assoc]
        exact List.perm_append_comm.append_left _
      exact ((moved.trans (swapped.append_left _)).nodup_iff).mp inv.nodup
    · intro other hother
      rw [← List.append_assoc] at hother
      rcases List.mem_append.mp hother with hother | hother
      · exact inv.waited other (List.mem_cons_of_mem _ hother)
      · rw [List.mem_singleton.mp hother]
        exact inv.waited key (List.mem_cons_self ..)

/-- The keys of a refused batch are asked for one by one, and each is deleted or placed. -/
theorem Inv.deleteEach (answers : Nat → Bool) (request : Nat) {batch : List ObjectKey}
    (inv : Inv delayMs history outstanding batch l) (report : SweepReport) :
    ∃ deleted, (deleteEach answers request batch l report).2.deleted = report.deleted ++ deleted ∧
      (deleteEach answers request batch l report).2.requests =
        report.requests ++ batch.map (fun key => [key]) ∧
      Inv delayMs history (outstanding \ deleted.toFinset) []
        (deleteEach answers request batch l report).1 := by
  induction batch generalizing l request report outstanding with
  | nil => exact ⟨[], by simp [Lifecycle.deleteEach], by simp [Lifecycle.deleteEach],
      by simpa [Lifecycle.deleteEach] using inv⟩
  | cons key rest ih =>
    unfold Lifecycle.deleteEach
    dsimp only
    by_cases confirmed : answers request = true
    · rw [if_pos confirmed]
      obtain ⟨deleted, hdeleted, hrequests, hinv⟩ := ih (request + 1) inv.forget
        { report with
          requests := report.requests ++ [[key]]
          deleted := report.deleted ++ [key] }
      refine ⟨key :: deleted, by simp [hdeleted], by simp [hrequests], ?_⟩
      have same : outstanding \ (key :: deleted).toFinset =
          outstanding.erase key \ deleted.toFinset := by
        ext other
        simp only [List.toFinset_cons, Finset.mem_sdiff, Finset.mem_insert, Finset.mem_erase]
        tauto
      rw [same]
      exact hinv
    · rw [if_neg confirmed]
      obtain ⟨placed, sameDeleted, sameRequests⟩ :=
        inv.refuse { report with requests := report.requests ++ [[key]] }
      obtain ⟨deleted, hdeleted, hrequests, hinv⟩ := ih (request + 1) placed
        (l.refuse { report with requests := report.requests ++ [[key]] } key).2
      refine ⟨deleted, by rw [hdeleted, sameDeleted], ?_, hinv⟩
      rw [hrequests, sameRequests]
      simp

theorem Inv.forgetAll {batch : List ObjectKey} (inv : Inv delayMs history outstanding batch l) :
    Inv delayMs history (outstanding \ batch.toFinset) [] (batch.foldl Lifecycle.forget l) := by
  induction batch generalizing l outstanding with
  | nil => simpa using inv
  | cons key rest ih =>
    have same : outstanding \ (key :: rest).toFinset = outstanding.erase key \ rest.toFinset := by
      ext other
      simp only [List.toFinset_cons, Finset.mem_sdiff, Finset.mem_insert, Finset.mem_erase]
      tauto
    rw [same]
    exact ih inv.forget

/-- A sweep asks only for keys that have waited, and leaves every key in one place. -/
theorem Inv.sweep (inv : Inv delayMs history outstanding [] l) (s : Sweep) :
    Inv delayMs (history ++ [.swept s]) (l.leftover outstanding (.swept s)) [] (l.sweep s).1 ∧
      ∀ key ∈ l.requested (.swept s), Waited delayMs key (history ++ [.swept s]) := by
  have promoted := inv.promote s
  have drained := promoted.drain deleteBatchKeys
  have due : ∀ key ∈ (l.promote s).queue.take deleteBatchKeys,
      Waited delayMs key (history ++ [.swept s]) :=
    fun key hkey => drained.waited key (List.mem_append_left _ hkey)
  unfold leftover requested Lifecycle.sweep
  dsimp only
  split
  · rename_i none
    rw [List.isEmpty_iff] at none
    rw [none] at drained
    exact ⟨by simpa using drained, by simp⟩
  · split
    · exact ⟨drained.forgetAll, by simpa using due⟩
    · obtain ⟨deleted, hdeleted, hrequests, hinv⟩ := drained.deleteEach s.answers 1
        { requests := [(l.promote s).queue.take deleteBatchKeys] }
      rw [hdeleted, hrequests]
      refine ⟨by simpa using hinv, ?_⟩
      intro key hkey
      apply due
      rw [List.flatten_append, List.mem_append] at hkey
      rcases hkey with hkey | hkey
      · simpa using hkey
      · obtain ⟨_, hone, hkey⟩ := List.mem_flatten.mp hkey
        obtain ⟨one, hmem, rfl⟩ := List.mem_map.mp hone
        rw [List.mem_singleton.mp hkey]
        exact hmem

theorem Inv.step (inv : Inv delayMs history outstanding [] l) (event : Event) :
    Inv delayMs (history ++ [event]) (l.leftover outstanding event) [] (l.step event) := by
  cases event with
  | release object => exact inv.release object
  | swept s => exact (inv.sweep s).1

end

theorem Inv.after (delayMs : Int) (history : List Event) :
    Inv delayMs history (after delayMs history).2 [] (after delayMs history).1 := by
  induction history using List.reverseRecOn with
  | nil => exact Inv.start delayMs
  | append_singleton history event ih =>
    unfold Lifecycle.after at ih ⊢
    rw [List.foldl_append]
    exact ih.step event

/-- Over any run: what is passed to the store's delete was released and then seen
unnamed by two sweeps the delay apart and by every sweep between them; what is
released and not deleted waits in exactly one place; and nothing is queued twice. -/
theorem deferred_deletion (delayMs : Int) (history : List Event) (event : Event) :
    (∀ key ∈ (after delayMs history).1.requested event,
      Waited delayMs key (history ++ [event])) ∧
    (∀ key ∈ (after delayMs history).2,
      (key ∈ (after delayMs history).1.logical ∧ key ∉ (after delayMs history).1.queue ∧
        key ∉ (after delayMs history).1.quarantined) ∨
      (key ∉ (after delayMs history).1.logical ∧ key ∈ (after delayMs history).1.queue ∧
        key ∉ (after delayMs history).1.quarantined) ∨
      (key ∉ (after delayMs history).1.logical ∧ key ∉ (after delayMs history).1.queue ∧
        key ∈ (after delayMs history).1.quarantined)) ∧
    (after delayMs history).1.queue.Nodup := by
  have inv := Inv.after delayMs history
  generalize after delayMs history = at_ at inv
  refine ⟨?_, ?_, ?_⟩
  · cases event with
    | release object => simp [requested]
    | swept s => exact (inv.sweep s).2
  · intro key hkey
    have leaving := inv.leaving key
    have apart := inv.apart key
    have separate := inv.nodup
    rw [List.nil_append, List.nodup_append'] at separate
    have disjoint : key ∈ at_.1.queue → key ∉ at_.1.quarantined :=
      fun queued quarantined => separate.2.2 queued quarantined
    have somewhere := (inv.outstanding key).mp hkey
    simp only [List.not_mem_nil, false_or] at leaving
    tauto
  · have separate := inv.nodup
    rw [List.nil_append, List.nodup_append'] at separate
    exact separate.1

end Oqueue.Lifecycle
