import Oqueue.Broker.Flushing

/-!
# Which slot an entry gets

What each entry adds to a pass, the slot it gets for that, and how both stay when partitions
that were refused are left out of the request.
-/

namespace Oqueue.Broker.Produce

open Threaded FirstSeen

section
variable {mode : TopicMode} {authz : AuthzContext}

theorem offered_eq_some {entry : Entry} {offer : Offered}
    (h : entry.offered mode authz = some offer) :
    ∃ topic, entry.screen mode authz = .ok (topic, offer.record) ∧
      offer.names = (topic, entry.partition.index) ∧
      entry.partition.lookups.topicKeyDomain offer.record.topic = some offer.domain ∧
      sealedRegion entry.partition.lookups offer.domain offer.record = .ok offer.region := by
  unfold Entry.offered at h
  split at h
  · cases h
  · rename_i topic record hscreen
    split at h
    · cases h
    · rename_i domain hdomain
      split at h
      · cases h
      · rename_i region hregion
        cases h
        exact ⟨topic, hscreen, rfl, hdomain, hregion⟩

theorem take_cases (pass : Pass) (entry : Entry) :
    (pass.take mode authz entry = pass ∧
      ((∃ code, entry.screen mode authz = .error code) ∨ pass.repeats entry = true)) ∨
    ∃ topic record, entry.screen mode authz = .ok (topic, record) ∧ pass.repeats entry = false ∧
      (topic, entry.partition.index) ∉ pass.seen ∧
      pass.take mode authz entry = ⟨(topic, entry.partition.index) :: pass.seen,
        pass.offers ++ (entry.offered mode authz).toList⟩ := by
  unfold Pass.take
  cases hscreen : entry.screen mode authz with
  | error code => exact .inl ⟨rfl, .inl ⟨code, rfl⟩⟩
  | ok found =>
    obtain ⟨topic, record⟩ := found
    have repeats := @Pass.repeats_iff pass entry topic (screen_eq_ok hscreen).2.2
    dsimp only
    by_cases named : (topic, entry.partition.index) ∈ pass.seen
    · rw [if_pos named]
      exact .inl ⟨rfl, .inr (by rw [repeats]; exact decide_eq_true named)⟩
    · rw [if_neg named]
      exact .inr ⟨topic, record, rfl, by rw [repeats]; exact decide_eq_false named, named, rfl⟩

theorem verify_error_ne {batch : List UInt8} {code : Int} (h : verify batch = .error code) :
    code ≠ ErrorCode.none := by
  unfold verify at h
  split at h
  · cases h
    decide
  · cases h
    decide
  · split at h
    · cases h
      decide
    · split at h
      · cases h
        decide
      · split at h
        · cases h
          decide
        · split at h
          · cases h
            decide
          · split at h
            · cases h
              decide
            · split at h
              · cases h
                decide
              · split at h
                · cases h
                  decide
                · cases h

/-- No check refuses with the code of success. -/
theorem screen_error_ne {entry : Entry} {code : Int} (h : entry.screen mode authz = .error code) :
    code ≠ ErrorCode.none := by
  unfold Entry.screen at h
  split at h
  · rename_i hadmitted
    cases h
    unfold admitted at hadmitted
    split at hadmitted
    · cases hadmitted
      decide
    · split at hadmitted
      · cases hadmitted
        decide
      · split at hadmitted
        · cases hadmitted
        · cases hadmitted
          decide
  · split at h
    · rename_i hscreened
      cases h
      unfold screened at hscreened
      split at hscreened
      · cases hscreened
        decide
      · split at hscreened
        · split at hscreened
          · cases hscreened
            decide
          · split at hscreened
            · rename_i hverify
              cases hscreened
              exact verify_error_ne hverify
            · split at hscreened
              · cases hscreened
                decide
              · cases hscreened
        · cases hscreened
          decide
    · cases h

/-- A region pushed is the next that fits; an entry refused adds none. -/
theorem slot_cases (pass : Pass) (entry : Entry) :
    (∃ offer, entry.offered mode authz = some offer ∧ offer.fits = true ∧
      pass.repeats entry = false ∧
      (pass.take mode authz entry).offers = pass.offers ++ [offer] ∧
      ∀ nth, entry.slot mode authz (pass.repeats entry) nth = .pushed nth) ∨
    ((pass.repeats entry = true ∨ (entry.offered mode authz).any Offered.fits = false) ∧
      (pass.take mode authz entry).offers.filter Offered.fits = pass.offers.filter Offered.fits ∧
      ∃ code, code ≠ ErrorCode.none ∧
        ∀ nth, entry.slot mode authz (pass.repeats entry) nth = .refused code) := by
  rcases @take_cases mode authz pass entry with
    ⟨same, ⟨code, hscreen⟩ | repeated⟩ | ⟨topic, record, hscreen, once, -, taken⟩
  · right
    rw [same]
    refine ⟨.inr ?_, rfl, code, screen_error_ne hscreen, fun nth => ?_⟩
    · unfold Entry.offered
      rw [hscreen]
      rfl
    · unfold Entry.slot
      rw [hscreen]
  · right
    rw [same, repeated]
    cases hscreen : entry.screen mode authz with
    | error code =>
      refine ⟨.inl rfl, rfl, code, screen_error_ne hscreen, fun nth => ?_⟩
      unfold Entry.slot
      rw [hscreen]
    | ok found =>
      refine ⟨.inl rfl, rfl, ErrorCode.invalidRecord, by decide, fun nth => ?_⟩
      unfold Entry.slot
      rw [hscreen]
      rfl
  · rw [once, taken]
    dsimp only
    unfold Entry.slot Entry.offered
    rw [hscreen]
    dsimp only
    cases hdomain : entry.partition.lookups.topicKeyDomain record.topic with
    | none => exact .inr ⟨.inr rfl, by simp, _, by decide, fun nth => rfl⟩
    | some domain =>
      dsimp only
      cases hregion : sealedRegion entry.partition.lookups domain record with
      | error error =>
        cases error with
        | invalidRecord => exact .inr ⟨.inr rfl, by simp, _, by decide, fun nth => rfl⟩
        | encryptionUnavailable => exact .inr ⟨.inr rfl, by simp, _, by decide, fun nth => rfl⟩
      | ok region =>
        dsimp only
        cases hpush : pushRegion {} record region with
        | ok bundle =>
          refine .inl ⟨⟨(topic, entry.partition.index), domain, record, region⟩, rfl, ?_, rfl, rfl,
            fun nth => rfl⟩
          unfold Offered.fits
          rw [hpush]
          rfl
        | error error =>
          have unfit : (⟨(topic, entry.partition.index), domain, record, region⟩ : Offered).fits =
              false := by
            unfold Offered.fits
            rw [hpush]
            rfl
          refine .inr ⟨.inr (by simp [unfit]), by simp [unfit], ?_⟩
          cases error with
          | invalidRecord => exact ⟨_, by decide, fun nth => rfl⟩
          | encryptionUnavailable => exact ⟨_, by decide, fun nth => rfl⟩

theorem verify_records_lt {batch : List UInt8} {verified : Verified}
    (h : verify batch = .ok verified) : verified.records < 2 ^ 31 := by
  unfold verify at h
  split at h
  · cases h
  · cases h
  · rename_i header hheader
    split at h
    · cases h
    · split at h
      · cases h
      · split at h
        · cases h
        · split at h
          · cases h
          · split at h
            · cases h
            · split at h
              · cases h
              · rename_i claims
                split at h
                · cases h
                · cases h
                  rw [not_or, not_not] at claims
                  have := Codec.decodeBatchHeader_recordCount_lt hheader
                  have := claims.1
                  dsimp only
                  omega

theorem screen_count_lt {entry : Entry} {topic : String} {record : PendingRecord}
    (h : entry.screen mode authz = .ok (topic, record)) : record.pushed.count < 2 ^ 31 := by
  have hscreened := (screen_eq_ok h).2.1
  unfold screened at hscreened
  split at hscreened
  · cases hscreened
  · split at hscreened
    · split at hscreened
      · cases hscreened
      · split at hscreened
        · cases hscreened
        · rename_i hverify
          split at hscreened
          · cases hscreened
          · cases hscreened
            exact verify_records_lt hverify
    · cases hscreened

/-- The regions offered so far have names of their own, all taken down. -/
structure Pass.Sound (pass : Pass) : Prop where
  named : ∀ offer ∈ pass.offers, offer.names ∈ pass.seen
  once : (pass.offers.map Offered.names).Nodup
  counts : ∀ offer ∈ pass.offers, offer.record.pushed.count < 2 ^ 31

theorem Pass.Sound.take {pass : Pass} (sound : pass.Sound) (entry : Entry) :
    (pass.take mode authz entry).Sound := by
  rcases @take_cases mode authz pass entry with ⟨same, -⟩ | ⟨topic, record, hscreen, -, fresh, taken⟩
  · rw [same]
    exact sound
  · rw [taken]
    cases hoffer : entry.offered mode authz with
    | none =>
      rw [Option.toList_none, List.append_nil]
      exact ⟨fun offer h => List.mem_cons_of_mem _ (sound.named offer h), sound.once, sound.counts⟩
    | some offer =>
      obtain ⟨topic', hscreen', hnames, -⟩ := offered_eq_some hoffer
      rw [hscreen] at hscreen'
      cases hscreen'
      refine ⟨?_, ?_, ?_⟩
      · intro other h
        rcases List.mem_append.mp h with h | h
        · exact List.mem_cons_of_mem _ (sound.named other h)
        · rw [List.mem_singleton.mp h, hnames]
          exact List.mem_cons_self ..
      · rw [List.map_append, List.nodup_append]
        refine ⟨sound.once, by simp, ?_⟩
        intro names hnames' other hother same
        obtain ⟨before, hbefore, rfl⟩ := List.mem_map.mp hnames'
        have : other = offer.names := by simpa using hother
        rw [this, hnames] at same
        exact fresh (same ▸ sound.named before hbefore)
      · intro other h
        rcases List.mem_append.mp h with h | h
        · exact sound.counts other h
        · rw [List.mem_singleton.mp h]
          exact screen_count_lt hscreen

theorem Pass.Sound.foldl {pass : Pass} (sound : pass.Sound) (entries : List Entry) :
    (entries.foldl (Pass.take mode authz) pass).Sound := by
  induction entries generalizing pass with
  | nil => exact sound
  | cons entry rest ih => exact ih (sound.take entry)

theorem passOf_sound (entries : List Entry) : (passOf mode authz entries).Sound :=
  have start : ({} : Pass).Sound := ⟨fun _ h => absurd h List.not_mem_nil, List.nodup_nil,
    fun _ h => absurd h List.not_mem_nil⟩
  start.foldl entries

theorem foldl_offers (pass : Pass) (entries : List Entry) :
    ∃ more, (entries.foldl (Pass.take mode authz) pass).offers = pass.offers ++ more ∧
      more.length ≤ entries.length := by
  induction entries generalizing pass with
  | nil => exact ⟨[], (List.append_nil _).symm, Nat.le_refl _⟩
  | cons entry rest ih =>
    obtain ⟨more, hmore, few⟩ := ih (pass.take mode authz entry)
    rw [List.foldl_cons, hmore]
    rcases @take_cases mode authz pass entry with ⟨same, -⟩ | ⟨_, _, -, -, -, taken⟩
    · rw [same]
      exact ⟨more, rfl, Nat.le_succ_of_le few⟩
    · rw [taken]
      refine ⟨(entry.offered mode authz).toList ++ more, List.append_assoc .., ?_⟩
      rw [List.length_append, List.length_cons]
      cases entry.offered mode authz <;> simp <;> omega

def pairsFrom (mode : TopicMode) (authz : AuthzContext) (pass : Pass) (entries : List Entry) :
    List (Entry × PartitionSlot) :=
  entries.zip (slotsFrom mode authz pass entries)

theorem pairsFrom_cons (pass : Pass) (entry : Entry) (rest : List Entry) :
    pairsFrom mode authz pass (entry :: rest) =
      (entry, ⟨entry.partition.index, entry.slot mode authz (pass.repeats entry)
        (pass.offers.filter Offered.fits).length⟩) ::
        pairsFrom mode authz (pass.take mode authz entry) rest := rfl

@[simp] theorem length_slotsFrom (pass : Pass) (entries : List Entry) :
    (slotsFrom mode authz pass entries).length = entries.length := by
  induction entries generalizing pass with
  | nil => rfl
  | cons entry rest ih => exact congrArg (· + 1) (ih _)

/-- A pushed entry has the region at its place; a refused one never has the code of success. -/
theorem mem_pairsFrom {pass : Pass} {entries : List Entry} {pair : Entry × PartitionSlot}
    (h : pair ∈ pairsFrom mode authz pass entries) :
    pair.2.index = pair.1.partition.index ∧
    ((∃ nth offer, pair.2.slot = .pushed nth ∧ pair.1.offered mode authz = some offer ∧
        ((entries.foldl (Pass.take mode authz) pass).offers.filter Offered.fits)[nth]? = some offer) ∨
      ∃ code, code ≠ ErrorCode.none ∧ pair.2.slot = .refused code) := by
  induction entries generalizing pass with
  | nil => cases h
  | cons entry rest ih =>
    rw [pairsFrom_cons] at h
    rcases List.mem_cons.mp h with rfl | h
    · refine ⟨rfl, ?_⟩
      rcases @slot_cases mode authz pass entry with ⟨offer, hoffer, fits, -, taken, pushed⟩ |
        ⟨-, -, code, ne, refused⟩
      · left
        obtain ⟨more, hmore, -⟩ := @foldl_offers mode authz (pass.take mode authz entry) rest
        refine ⟨_, offer, pushed _, hoffer, ?_⟩
        rw [List.foldl_cons, hmore, taken, List.append_assoc, List.filter_append,
          List.getElem?_append_right (Nat.le_refl _)]
        simp [fits]
      · exact .inr ⟨code, ne, refused _⟩
    · exact ih h

theorem exists_pushed (pass : Pass) (entries : List Entry) {nth : Nat}
    (below : (pass.offers.filter Offered.fits).length ≤ nth)
    (inside : nth < ((entries.foldl (Pass.take mode authz) pass).offers.filter Offered.fits).length) :
    ∃ pair ∈ pairsFrom mode authz pass entries, pair.2.slot = .pushed nth := by
  induction entries generalizing pass with
  | nil => exact absurd inside (Nat.not_lt.mpr below)
  | cons entry rest ih =>
    rw [pairsFrom_cons]
    rcases @slot_cases mode authz pass entry with ⟨offer, hoffer, fits, -, taken, pushed⟩ |
      ⟨-, kept, -⟩
    · by_cases here : nth = (pass.offers.filter Offered.fits).length
      · exact ⟨_, List.mem_cons_self .., here ▸ pushed _⟩
      · have next : ((pass.take mode authz entry).offers.filter Offered.fits).length ≤ nth := by
          rw [taken, filter_snoc, if_pos fits, List.length_append, List.length_singleton]
          omega
        obtain ⟨pair, among, hpushed⟩ := ih _ next inside
        exact ⟨pair, List.mem_cons_of_mem _ among, hpushed⟩
    · obtain ⟨pair, among, hpushed⟩ := ih (pass.take mode authz entry) (by rw [kept]; exact below) inside
      exact ⟨pair, List.mem_cons_of_mem _ among, hpushed⟩

theorem map_fst_pairsFrom (pass : Pass) (entries : List Entry) :
    (pairsFrom mode authz pass entries).map Prod.fst = entries :=
  List.map_fst_zip (length_slotsFrom _ _).ge

theorem pairsFrom_append (pass : Pass) (before : List Entry) (entry : Entry) (after : List Entry) :
    pairsFrom mode authz pass (before ++ entry :: after) =
      pairsFrom mode authz pass before ++
        (entry, ⟨entry.partition.index, entry.slot mode authz
          ((before.foldl (Pass.take mode authz) pass).repeats entry)
          ((before.foldl (Pass.take mode authz) pass).offers.filter Offered.fits).length⟩) ::
        pairsFrom mode authz ((before.foldl (Pass.take mode authz) pass).take mode authz entry)
          after := by
  induction before generalizing pass with
  | nil => rfl
  | cons first rest ih =>
    rw [List.cons_append, pairsFrom_cons, pairsFrom_cons, ih]
    rfl

theorem pairsFrom_split {pass : Pass} {entries : List Entry}
    {before after : List (Entry × PartitionSlot)} {pair : Entry × PartitionSlot}
    (h : pairsFrom mode authz pass entries = before ++ pair :: after) :
    entries = before.map Prod.fst ++ pair.1 :: after.map Prod.fst ∧
      ∃ nth, pair.2.slot = pair.1.slot mode authz
        (((before.map Prod.fst).foldl (Pass.take mode authz) pass).repeats pair.1) nth := by
  induction before generalizing pass entries with
  | nil =>
    cases entries with
    | nil => cases h
    | cons entry rest =>
      rw [pairsFrom_cons] at h
      obtain ⟨rfl, rfl⟩ := List.cons.inj h
      exact ⟨congrArg (entry :: ·) (map_fst_pairsFrom _ _).symm, _, rfl⟩
  | cons first before ih =>
    cases entries with
    | nil => cases h
    | cons entry rest =>
      rw [pairsFrom_cons] at h
      obtain ⟨rfl, tail⟩ := List.cons.inj h
      obtain ⟨whole, slot⟩ := ih tail
      exact ⟨congrArg (entry :: ·) whole, slot⟩

/-- A name is taken down exactly by an entry that passes its own checks. -/
theorem repeats_foldl (pass : Pass) (entries : List Entry) (entry : Entry) :
    (entries.foldl (Pass.take mode authz) pass).repeats entry = true ↔
      pass.repeats entry = true ∨ ∃ earlier ∈ entries, earlier.names = entry.names ∧
        (earlier.screen mode authz).isOk = true := by
  induction entries generalizing pass with
  | nil => simp
  | cons first rest ih =>
    rw [List.foldl_cons, ih]
    have one : (pass.take mode authz first).repeats entry = true ↔ pass.repeats entry = true ∨
        (first.names = entry.names ∧ (first.screen mode authz).isOk = true) := by
      rcases @take_cases mode authz pass first with ⟨same, ⟨code, hscreen⟩ | repeated⟩ |
        ⟨topic, record, hscreen, -, -, taken⟩
      · rw [same, hscreen]
        simp [Except.isOk, Except.toBool]
      · rw [same]
        constructor
        · exact .inl
        · rintro (h | ⟨names, -⟩)
          · exact h
          · unfold Pass.repeats at repeated ⊢
            rwa [← names]
      · have names : first.names = (some topic, first.partition.index) := by
          unfold Entry.names
          rw [(screen_eq_ok hscreen).2.2]
        rw [taken, hscreen, names]
        unfold Pass.repeats
        simp only [List.any_cons, Bool.or_eq_true, decide_eq_true_eq]
        constructor
        · rintro (h | h)
          · exact .inr ⟨h, rfl⟩
          · exact .inl h
        · rintro (h | ⟨h, -⟩)
          · exact .inr h
          · exact .inl h
    rw [one]
    simp only [List.mem_cons, exists_eq_or_imp]
    exact or_assoc

def Pass.without (pass : Pass) (gone : Option String × Int → Bool) : Pass where
  seen := pass.seen.filter fun names => !gone (some names.1, names.2)
  offers := pass.offers.filter fun offer => !gone (some offer.names.1, offer.names.2)

theorem offered_names {entry : Entry} {topic : String} {record : PendingRecord} {offer : Offered}
    (hscreen : entry.screen mode authz = .ok (topic, record))
    (h : entry.offered mode authz = some offer) : offer.names = (topic, entry.partition.index) := by
  obtain ⟨topic', hscreen', hnames, -⟩ := offered_eq_some h
  rw [hscreen] at hscreen'
  cases hscreen'
  exact hnames

theorem without_take {gone : Option String × Int → Bool} (pass : Pass) (entry : Entry) :
    (pass.take mode authz entry).without gone = if gone entry.names = true then pass.without gone
      else (pass.without gone).take mode authz entry := by
  cases hscreen : entry.screen mode authz with
  | error code =>
    have same (pass : Pass) : pass.take mode authz entry = pass := by
      unfold Pass.take
      rw [hscreen]
    rw [same, same, ite_self]
  | ok found =>
    obtain ⟨topic, record⟩ := found
    have names : entry.names = (some topic, entry.partition.index) := by
      unfold Entry.names
      rw [(screen_eq_ok hscreen).2.2]
    have step (pass : Pass) : pass.take mode authz entry =
        if (topic, entry.partition.index) ∈ pass.seen then pass
        else ⟨(topic, entry.partition.index) :: pass.seen,
          pass.offers ++ (entry.offered mode authz).toList⟩ := by
      unfold Pass.take
      rw [hscreen]
    have adds (keep : Bool) (h : gone (some topic, entry.partition.index) = !keep) :
        (entry.offered mode authz).toList.filter
          (fun offer => !gone (some offer.names.1, offer.names.2)) =
        if keep = true then (entry.offered mode authz).toList else [] := by
      cases hoffer : entry.offered mode authz with
      | none => simp
      | some offer =>
        have := offered_names hscreen hoffer
        cases keep <;> simp [this, h]
    rw [step, step, names]
    cases hgone : gone (some topic, entry.partition.index) with
    | true =>
      rw [if_pos rfl]
      by_cases named : (topic, entry.partition.index) ∈ pass.seen
      · rw [if_pos named]
      · rw [if_neg named]
        unfold Pass.without
        simp [hgone, adds false hgone]
    | false =>
      rw [if_neg Bool.false_ne_true]
      have kept : (topic, entry.partition.index) ∈ (pass.without gone).seen ↔
          (topic, entry.partition.index) ∈ pass.seen := by
        unfold Pass.without
        simp [hgone]
      by_cases named : (topic, entry.partition.index) ∈ pass.seen
      · rw [if_pos named, if_pos (kept.mpr named)]
      · rw [if_neg named, if_neg fun h => named (kept.mp h)]
        unfold Pass.without
        simp [hgone, adds true hgone]

theorem without_repeats {gone : Option String × Int → Bool} (pass : Pass) {entry : Entry}
    (stays : gone entry.names = false) : (pass.without gone).repeats entry = pass.repeats entry := by
  unfold Pass.repeats Pass.without
  rw [Bool.eq_iff_iff]
  simp only [List.any_filter, List.any_eq_true, Bool.and_eq_true, decide_eq_true_eq,
    Bool.not_eq_true']
  constructor
  · rintro ⟨names, among, -, same⟩
    exact ⟨names, among, same⟩
  · rintro ⟨names, among, same⟩
    exact ⟨names, among, same ▸ stays, same⟩

/-- Where all that goes was refused, the entries that stay keep their slots. -/
theorem pairsFrom_without {gone : Option String × Int → Bool} (pass : Pass) (entries : List Entry)
    (start : (pass.without gone).offers.filter Offered.fits = pass.offers.filter Offered.fits)
    (refused : ∀ pair ∈ pairsFrom mode authz pass entries, gone pair.1.names = true →
      ∃ code, pair.2.slot = .refused code) :
    pairsFrom mode authz (pass.without gone) (entries.filter fun entry => !gone entry.names) =
        (pairsFrom mode authz pass entries).filter (fun pair => !gone pair.1.names) ∧
      (entries.filter fun entry => !gone entry.names).foldl (Pass.take mode authz)
        (pass.without gone) = (entries.foldl (Pass.take mode authz) pass).without gone ∧
      ((entries.foldl (Pass.take mode authz) pass).without gone).offers.filter Offered.fits =
        (entries.foldl (Pass.take mode authz) pass).offers.filter Offered.fits := by
  induction entries generalizing pass with
  | nil => exact ⟨rfl, rfl, start⟩
  | cons entry rest ih =>
    rw [pairsFrom_cons] at refused ⊢
    have later := fun pair h => refused pair (List.mem_cons_of_mem _ h)
    have step := @without_take mode authz gone pass entry
    cases hgone : gone entry.names with
    | true =>
      rw [hgone, if_pos rfl] at step
      have kept : (pass.take mode authz entry).offers.filter Offered.fits =
          pass.offers.filter Offered.fits := by
        rcases @slot_cases mode authz pass entry with ⟨_, -, -, -, -, pushed⟩ | ⟨-, kept, -⟩
        · obtain ⟨code, hcode⟩ := refused _ (List.mem_cons_self ..) hgone
          rw [pushed] at hcode
          cases hcode
        · exact kept
      have more := ih (pass.take mode authz entry) (by rw [step, kept]; exact start) later
      rw [step] at more
      rw [List.filter_cons_of_neg (by simp [hgone]), List.filter_cons_of_neg (by simp [hgone])]
      exact more
    | false =>
      rw [hgone, if_neg Bool.false_ne_true] at step
      have kept : ((pass.take mode authz entry).without gone).offers.filter Offered.fits =
          (pass.take mode authz entry).offers.filter Offered.fits := by
        rw [step]
        have alike := @without_repeats gone pass entry hgone
        rcases @slot_cases mode authz pass entry with ⟨offer, hoffer, fits, once, taken, -⟩ |
          ⟨quiet, kept, -⟩ <;>
        rcases @slot_cases mode authz (pass.without gone) entry with
          ⟨offer', hoffer', fits', once', taken', -⟩ | ⟨quiet', kept', -⟩
        · rw [hoffer] at hoffer'
          cases hoffer'
          rw [taken, taken', filter_snoc, filter_snoc, start]
        · rw [alike, once, hoffer] at quiet'
          simp [fits] at quiet'
        · rw [← alike, once', hoffer'] at quiet
          simp [fits'] at quiet
        · rw [kept, kept', start]
      have more := ih (pass.take mode authz entry) kept later
      rw [step] at more
      rw [List.filter_cons_of_pos (by simp [hgone]), List.filter_cons_of_pos (by simp [hgone]),
        pairsFrom_cons, more.1, without_repeats pass hgone, start]
      exact ⟨rfl, more.2⟩

end

end Oqueue.Broker.Produce
