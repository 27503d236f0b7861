import Oqueue.Broker.Bundling
import Oqueue.Coordinator.Acknowledged

/-!
# What a produce request's flushes decide

The bundles are flushed domain by domain until one fails. Which region gets which outcome
depends on the regions that fit and on the domains that are reached with a bundle that can
be sealed, and on nothing else of the request.
-/

namespace Oqueue.Broker.Produce

open FirstSeen

namespace Shard

def Sound (self : Shard) : Prop := Recorded self.loop.allocator self.journaled

/-- Nothing journaled is forgotten. -/
structure Extends (earlier later : Shard) : Prop where
  journaled : ∀ x ∈ earlier.journaled, x ∈ later.journaled
  own : ∀ x ∈ earlier.own, x ∈ later.own

theorem Extends.refl (self : Shard) : self.Extends self := ⟨fun _ h => h, fun _ h => h⟩

theorem Extends.trans {a b c : Shard} (first : a.Extends b) (second : b.Extends c) : a.Extends c :=
  ⟨fun x h => second.journaled x (first.journaled x h), fun x h => second.own x (first.own x h)⟩

theorem sound_after (history : List (LoopRequest × Except Error Unit)) : (after history).Sound :=
  CoordinatorLoop.recorded_run history

theorem serveOthers_spec {self : Shard} (sound : self.Sound)
    (others : List (LoopRequest × Except Error Unit)) :
    (others.foldl serveOther self).Sound ∧ self.Extends (others.foldl serveOther self) := by
  induction others generalizing self with
  | nil => exact ⟨sound, .refl self⟩
  | cons request rest ih =>
    have next := @ih (self.serveOther request) (CoordinatorLoop.recorded_turn sound request)
    have one : self.Extends (self.serveOther request) :=
      ⟨fun _ h => List.mem_append_left _ h, fun _ h => h⟩
    exact ⟨next.1, one.trans next.2⟩

def Answers (later : Shard) (spans : List CommittedSpan) (ack : CommitAck) : Prop :=
  ack.outcomes.length = spans.length ∧
  ∀ (index : Nat) (assignment : Assignment) (span : CommittedSpan),
    ack.outcomes[index]? = some (.assigned assignment) → spans[index]? = some span →
    CoordinatorLoop.Acknowledged later.journaled later.own span assignment.baseOffset

theorem Answers.mono {later last : Shard} {spans : List CommittedSpan} {ack : CommitAck}
    (answers : later.Answers spans ack) (more : later.Extends last) : last.Answers spans ack :=
  ⟨answers.1, fun index assignment span h hspan =>
    (answers.2 index assignment span h hspan).mono more.journaled more.own⟩

theorem commit_spec {self : Shard} (sound : self.Sound) (weather : Weather) (object : ObjectKey)
    (spans : List CommittedSpan) :
    (self.commit weather object spans).1.Sound ∧
      self.Extends (self.commit weather object spans).1 ∧
      ∀ ack, (self.commit weather object spans).2 = .ok ack →
        (self.commit weather object spans).1.Answers spans ack := by
  unfold commit
  split
  · have turned := CoordinatorLoop.recorded_turn sound
      (.commit object spans weather.writtenAt, weather.journal)
    refine ⟨turned, ⟨fun _ h => List.mem_append_left _ h, fun _ h => List.mem_append_left _ h⟩, ?_⟩
    intro ack answered
    dsimp only at answered
    split at answered
    · have said := CoordinatorLoop.serve_answers sound (Prod.ext rfl answered)
      refine ⟨said.1, ?_⟩
      intro index assignment span h hspan
      exact (said.2 index assignment span h hspan).mono (fun _ h => List.mem_append_left _ h)
        fun _ h => List.mem_append_right _ h
    · cases answered
  · exact ⟨sound, .refl self, fun ack h => by cases h⟩

theorem flush_spec {self : Shard} (sound : self.Sound) (weather : Weather) (bundle : BundleBuilder) :
    (self.flush weather bundle).1.Sound ∧ self.Extends (self.flush weather bundle).1 ∧
      ∀ ack, (self.flush weather bundle).2 = .ok ack →
        (self.flush weather bundle).1.Answers (spansOf bundle) ack := by
  have ⟨served, grown⟩ := serveOthers_spec sound weather.others
  have failed (source : FlushError) : ((weather.others.foldl serveOther self)).Sound ∧
      self.Extends (weather.others.foldl serveOther self) ∧
      ∀ ack, (.error source : Except FlushError CommitAck) = .ok ack →
        (weather.others.foldl serveOther self).Answers (spansOf bundle) ack :=
    ⟨served, grown, fun ack h => by cases h⟩
  unfold flush
  dsimp only
  cases hseal : bundle.seal with
  | error source => exact failed _
  | ok sealed_ =>
    have spans : sealed_.spans = spansOf bundle := by
      unfold BundleBuilder.seal at hseal
      split at hseal
      · cases hseal
      · obtain ⟨_, -, h⟩ := Checked.bind_eq_ok.mp hseal
        cases h
        rfl
    cases weather.nextKey with
    | error source => exact failed _
    | ok key =>
      cases weather.put with
      | error source => exact failed _
      | ok _ =>
        have committed := commit_spec served weather key sealed_.spans
        dsimp only
        rcases hcommit : (weather.others.foldl serveOther self).commit weather key sealed_.spans with
          ⟨shard, answer⟩
        rw [hcommit, spans] at committed
        cases answer with
        | error source =>
          exact ⟨committed.1, grown.trans committed.2.1, fun ack h => by cases h⟩
        | ok ack =>
          refine ⟨committed.1, grown.trans committed.2.1, ?_⟩
          intro ack' h
          cases h
          exact committed.2.2 _ rfl

end Shard

section
variable (weather : Nat → Weather) (bundle : KeyDomain → BundleBuilder)

/-- The acknowledgements of some domains' bundles, up to the first that fails, and how it did. -/
def replies : Nat → List KeyDomain → Shard →
    Shard × List (KeyDomain × CommitAck) × Option Int
  | _, [], shard => (shard, [], none)
  | index, domain :: domains, shard =>
    match shard.flush (weather index) (bundle domain) with
    | (shard, .error error) => (shard, [], some (failureCode error))
    | (shard, .ok ack) =>
      let more := replies (index + 1) domains shard
      (more.1, (domain, ack) :: more.2.1, more.2.2)

variable {weather bundle}

theorem replies_domains (index : Nat) (domains : List KeyDomain) (shard : Shard) :
    ((replies weather bundle index domains shard).2.1.map Prod.fst).IsPrefix domains := by
  induction domains generalizing index shard with
  | nil => exact List.prefix_refl _
  | cons domain rest ih =>
    unfold replies
    split
    · exact List.nil_prefix
    · exact List.cons_prefix_cons.mpr ⟨rfl, ih _ _⟩

theorem replies_complete {index : Nat} {domains : List KeyDomain} {shard : Shard}
    (whole : (replies weather bundle index domains shard).2.2 = none) :
    (replies weather bundle index domains shard).2.1.map Prod.fst = domains := by
  induction domains generalizing index shard with
  | nil => rfl
  | cons domain rest ih =>
    unfold replies at whole ⊢
    split at whole
    · cases whole
    · exact congrArg (domain :: ·) (ih whole)

/-- Every acknowledgement answers its own bundle's spans. -/
theorem replies_answer {index : Nat} {domains : List KeyDomain} {shard : Shard}
    (sound : shard.Sound) :
    shard.Extends (replies weather bundle index domains shard).1 ∧
      ∀ reply ∈ (replies weather bundle index domains shard).2.1,
        (replies weather bundle index domains shard).1.Answers (spansOf (bundle reply.1)) reply.2 := by
  induction domains generalizing index shard with
  | nil => exact ⟨.refl shard, fun reply h => absurd h List.not_mem_nil⟩
  | cons domain rest ih =>
    obtain ⟨sound', grown, answers⟩ := Shard.flush_spec sound (weather index) (bundle domain)
    unfold replies
    rcases hflush : shard.flush (weather index) (bundle domain) with ⟨shard', answer⟩
    rw [hflush] at sound' grown answers
    cases answer with
    | error error => exact ⟨grown, fun reply h => absurd h List.not_mem_nil⟩
    | ok ack =>
      obtain ⟨grown', more⟩ := @ih (index + 1) shard' sound'
      refine ⟨grown.trans grown', ?_⟩
      intro reply among
      rcases List.mem_cons.mp among with rfl | among
      · exact (answers ack rfl).mono grown'
      · exact more reply among

def seals (bundle : KeyDomain → BundleBuilder) (domain : KeyDomain) : Bool :=
  (bundle domain).seal.isOk

theorem flush_unsealed {shard : Shard} {weather : Weather} {bundle : BundleBuilder}
    (bad : bundle.seal.isOk = false) :
    ∃ shard' source, shard.flush weather bundle = (shard', .error (.store source)) := by
  unfold Shard.flush
  cases hseal : bundle.seal with
  | error source => exact ⟨_, _, rfl⟩
  | ok _ =>
    rw [hseal] at bad
    cases bad

/-- The domains whose bundles can be sealed, up to the first whose cannot, decide the replies. -/
theorem replies_lead (index : Nat) (domains : List KeyDomain) (shard : Shard) :
    (replies weather bundle index domains shard).2.1 =
        (replies weather bundle index (domains.takeWhile (seals bundle)) shard).2.1 ∧
      ((replies weather bundle index domains shard).2.2 = none ∨
        (replies weather bundle index domains shard).2.2 =
          some ((replies weather bundle index (domains.takeWhile (seals bundle)) shard).2.2.getD
            ErrorCode.notEnoughReplicas)) := by
  induction domains generalizing index shard with
  | nil => exact ⟨rfl, .inl rfl⟩
  | cons domain rest ih =>
    cases good : seals bundle domain with
    | false =>
      obtain ⟨shard', source, hflush⟩ := @flush_unsealed shard (weather index) (bundle domain) good
      rw [List.takeWhile_cons_of_neg (by simp [good])]
      unfold replies
      rw [hflush]
      exact ⟨rfl, .inr rfl⟩
    | true =>
      rw [List.takeWhile_cons_of_pos good]
      unfold replies
      rcases shard.flush (weather index) (bundle domain) with ⟨shard', error | ack⟩
      · exact ⟨rfl, .inr rfl⟩
      · obtain ⟨same, rest⟩ := ih (index + 1) shard'
        exact ⟨congrArg ((domain, ack) :: ·) same, rest⟩

/-- What comes later changes nothing of what was acknowledged before. -/
theorem replies_earlier {weather' : Nat → Weather} {upto : Nat} (index : Nat)
    (same : ∀ j, j < upto → weather' j = weather j) (domains : List KeyDomain) (shard : Shard) :
    (replies weather' bundle index domains shard).2.1.take (upto - index) =
        (replies weather bundle index domains shard).2.1.take (upto - index) ∧
      ((replies weather bundle index domains shard).2.1.length < upto - index →
        (replies weather' bundle index domains shard).2.2 =
          (replies weather bundle index domains shard).2.2) := by
  induction domains generalizing index shard with
  | nil => exact ⟨rfl, fun _ => rfl⟩
  | cons domain rest ih =>
    by_cases inside : index < upto
    · have here := same index inside
      have left : upto - index = (upto - (index + 1)) + 1 := by omega
      unfold replies
      rw [here]
      rcases shard.flush (weather index) (bundle domain) with ⟨shard', error | ack⟩
      · exact ⟨rfl, fun _ => rfl⟩
      · obtain ⟨taken, code⟩ := ih (index + 1) shard'
        rw [left, List.take_succ_cons, List.take_succ_cons, taken]
        refine ⟨rfl, fun short => code ?_⟩
        simpa using short
    · have none : upto - index = 0 := by omega
      rw [none]
      exact ⟨rfl, fun short => absurd short (Nat.not_lt_zero _)⟩

end

/-- The regions of one domain with their places. -/
def rowsOf (fitting : List Offered) (domain : KeyDomain) : List (Offered × Nat) :=
  fitting.zipIdx.filter fun offer => offer.1.domain = domain

theorem inDomain_eq (offers : List Offered) (domain : KeyDomain) :
    inDomain offers domain = (rowsOf (offers.filter Offered.fits) domain).map Prod.fst := by
  unfold inDomain rowsOf
  conv_lhs => rw [← List.zipIdx_map_fst 0 (offers.filter Offered.fits)]
  rw [List.filter_map]
  rfl

theorem mem_rowsOf {fitting : List Offered} {domain : KeyDomain} {offer : Offered} {nth : Nat} :
    (offer, nth) ∈ rowsOf fitting domain ↔ fitting[nth]? = some offer ∧ offer.domain = domain := by
  unfold rowsOf
  rw [List.mem_filter, List.mem_zipIdx_iff_getElem?, decide_eq_true_eq]

theorem nodup_places (fitting : List Offered) (domain : KeyDomain) :
    ((rowsOf fitting domain).map Prod.snd).Nodup := by
  have all : (fitting.zipIdx.map Prod.snd).Nodup := by
    rw [List.zipIdx_map_snd]
    exact List.nodup_range'
  exact all.sublist (List.filter_sublist.map Prod.snd)

/-- Where a region stands in its domain's bundle. -/
def localPlace (fitting : List Offered) (offer : Offered) (nth : Nat) : Nat :=
  ((rowsOf fitting offer.domain).map Prod.snd).idxOf nth

theorem row_localPlace {fitting : List Offered} {offer : Offered} {nth : Nat}
    (h : fitting[nth]? = some offer) :
    (rowsOf fitting offer.domain)[localPlace fitting offer nth]? = some (offer, nth) := by
  have among : (offer, nth) ∈ rowsOf fitting offer.domain := mem_rowsOf.mpr ⟨h, rfl⟩
  have place : nth ∈ (rowsOf fitting offer.domain).map Prod.snd :=
    List.mem_map.mpr ⟨_, among, rfl⟩
  have found : ((rowsOf fitting offer.domain).map Prod.snd)[localPlace fitting offer nth]? =
      some nth := by
    unfold localPlace
    rw [List.getElem?_eq_getElem (List.idxOf_lt_length_iff.mpr place), List.getElem_idxOf]
  rw [List.getElem?_map, Option.map_eq_some_iff] at found
  obtain ⟨⟨other, nth'⟩, hrow, rfl⟩ := found
  have here := (mem_rowsOf.mp (List.mem_of_getElem? hrow)).1
  rw [h] at here
  cases here
  exact hrow

/-- What the acknowledgements so far say about one region. -/
def outcomeOf (fitting : List Offered) (acks : List (KeyDomain × CommitAck)) (offer : Offered)
    (nth : Nat) : Option PushOutcome :=
  (acks.lookup offer.domain).bind fun ack =>
    (ack.outcomes[localPlace fitting offer nth]?).map PushOutcome.ofSpan

def table (fitting : List Offered) (acks : List (KeyDomain × CommitAck)) :
    List (Option PushOutcome) :=
  fitting.zipIdx.map fun item => outcomeOf fitting acks item.1 item.2

@[simp] theorem length_table (fitting : List Offered) (acks : List (KeyDomain × CommitAck)) :
    (table fitting acks).length = fitting.length := by
  simp [table]

theorem getElem?_table {fitting : List Offered} (acks : List (KeyDomain × CommitAck)) {nth : Nat}
    {offer : Offered} (h : fitting[nth]? = some offer) :
    (table fitting acks)[nth]? = some (outcomeOf fitting acks offer nth) := by
  unfold table
  rw [List.getElem?_map, List.getElem?_zipIdx, h]
  simp

theorem table_nil (fitting : List Offered) :
    table fitting [] = List.replicate fitting.length none := by
  refine List.ext_getElem (by simp) fun nth inside _ => ?_
  rw [List.getElem_replicate]
  simp [table, outcomeOf]

/-- Outcomes go where the route says, in order, and nothing else changes. -/
theorem routed_spec {outcomes : List SpanOutcome} {route : List Nat}
    {before : List (Option PushOutcome)} (lengths : outcomes.length = route.length)
    (once : route.Nodup) (inside : ∀ nth ∈ route, nth < before.length) :
    ∃ after, routed outcomes route before = .ok after ∧ after.length = before.length ∧
      (∀ nth, nth ∉ route → after[nth]? = before[nth]?) ∧
      ∀ (place nth : Nat) (outcome : SpanOutcome), route[place]? = some nth →
        outcomes[place]? = some outcome → after[nth]? = some (some (.ofSpan outcome)) := by
  induction outcomes generalizing route before with
  | nil =>
    refine ⟨before, by cases route <;> rfl, rfl, fun _ _ => rfl, ?_⟩
    intro place nth outcome _ h
    cases h
  | cons outcome rest ih =>
    cases route with
    | nil => cases lengths
    | cons nth route =>
      have split := List.nodup_cons.mp once
      obtain ⟨after, hafter, length, others, placed⟩ := @ih route
        (before.set nth (some (.ofSpan outcome))) (Nat.succ.inj lengths) split.2
        fun other h => by
          rw [List.length_set]
          exact inside other (List.mem_cons_of_mem _ h)
      refine ⟨after, hafter, length.trans List.length_set, ?_, ?_⟩
      · intro other away
        rw [List.mem_cons, not_or] at away
        rw [others other away.2, List.getElem?_set_ne (Ne.symm away.1)]
      · intro place other outcome' hroute houtcome
        cases place with
        | zero =>
          cases hroute
          cases houtcome
          rw [others nth split.1, List.getElem?_set_self (inside nth (List.mem_cons_self ..))]
        | succ place => exact placed place other outcome' hroute houtcome

/-- One more acknowledged bundle is one more row of the table. -/
theorem routed_table {fitting : List Offered} {acks : List (KeyDomain × CommitAck)}
    {domain : KeyDomain} {ack : CommitAck} (new : acks.lookup domain = none)
    (lengths : ack.outcomes.length = (rowsOf fitting domain).length) :
    routed ack.outcomes ((rowsOf fitting domain).map Prod.snd) (table fitting acks) =
      .ok (table fitting (acks ++ [(domain, ack)])) := by
  have inside : ∀ nth ∈ (rowsOf fitting domain).map Prod.snd, nth < (table fitting acks).length := by
    intro nth among
    obtain ⟨⟨offer, _⟩, hrow, rfl⟩ := List.mem_map.mp among
    rw [length_table]
    exact (List.getElem?_eq_some_iff.mp (mem_rowsOf.mp hrow).1).1
  obtain ⟨after, hafter, length, others, placed⟩ := routed_spec
    (by rw [lengths, List.length_map]) (nodup_places fitting domain) inside
  rw [hafter]
  congr 1
  refine List.ext_getElem? fun nth => ?_
  cases hoffer : fitting[nth]? with
  | none =>
    have outside := List.getElem?_eq_none_iff.mp hoffer
    rw [List.getElem?_eq_none (by rw [length, length_table]; exact outside),
      List.getElem?_eq_none (by rw [length_table]; exact outside)]
  | some offer =>
    rw [getElem?_table _ hoffer]
    unfold outcomeOf
    rw [List.lookup_append]
    by_cases same : offer.domain = domain
    · subst same
      have hrow := row_localPlace hoffer
      have short : localPlace fitting offer nth < ack.outcomes.length := by
        rw [lengths]
        exact (List.getElem?_eq_some_iff.mp hrow).1
      rw [new, placed (localPlace fitting offer nth) nth _
        (by rw [List.getElem?_map, hrow]; rfl) (List.getElem?_eq_getElem short)]
      simp [short]
    · have away : nth ∉ (rowsOf fitting domain).map Prod.snd := by
        intro among
        obtain ⟨⟨other, _⟩, hrow, rfl⟩ := List.mem_map.mp among
        have there := mem_rowsOf.mp hrow
        rw [hoffer] at there
        exact same (Option.some.inj there.1 ▸ there.2)
      have apart : (offer.domain == domain) = false := by simpa using same
      rw [others nth away, getElem?_table _ hoffer, List.lookup_cons, apart]
      simp [outcomeOf]

theorem collected_eq {outcomes : List (Option PushOutcome)} (fallback : PushOutcome)
    (all : ∀ outcome ∈ outcomes, outcome.isSome = true) :
    collected outcomes = .ok (outcomes.map fun outcome => outcome.getD fallback) := by
  unfold collected
  induction outcomes with
  | nil => rfl
  | cons outcome rest ih =>
    rw [List.mapM_cons, ih fun other h => all other (List.mem_cons_of_mem _ h)]
    cases outcome with
    | none => exact absurd (all none (List.mem_cons_self ..)) Bool.false_ne_true
    | some outcome => rfl

section
variable {weather : Nat → Weather} {bundle : KeyDomain → BundleBuilder} {fitting : List Offered}

/-- An acknowledged domain has an outcome for each of its regions. -/
def Covers (fitting : List Offered) (acks : List (KeyDomain × CommitAck)) (domain : KeyDomain) :
    Prop :=
  ∃ ack, acks.lookup domain = some ack ∧ ack.outcomes.length = (rowsOf fitting domain).length

theorem Covers.outcome {acks : List (KeyDomain × CommitAck)} {offer : Offered} {nth : Nat}
    (covers : Covers fitting acks offer.domain) (h : fitting[nth]? = some offer) :
    (outcomeOf fitting acks offer nth).isSome = true := by
  obtain ⟨ack, hack, length⟩ := covers
  have inside : localPlace fitting offer nth < ack.outcomes.length := by
    rw [length]
    exact (List.getElem?_eq_some_iff.mp (row_localPlace h)).1
  simp [outcomeOf, hack, inside]

/-- Flushing the bundles one by one fills the table, up to the first that fails. -/
theorem flushBundles_eq (sizes : ∀ domain, (spansOf (bundle domain)).length =
      (rowsOf fitting domain).length) (code : Int) {index : Nat} {domains : List KeyDomain}
    {shard : Shard} {acks : List (KeyDomain × CommitAck)} (sound : shard.Sound)
    (once : domains.Nodup) (new : ∀ domain ∈ domains, acks.lookup domain = none)
    (covered : ∀ offer ∈ fitting, offer.domain ∈ domains ∨ Covers fitting acks offer.domain) :
    let r := replies weather bundle index domains shard
    flushBundles weather index (domains.map bundle)
        (domains.map fun domain => (rowsOf fitting domain).map Prod.snd) shard (table fitting acks) =
      (r.1, .ok ((table fitting (acks ++ r.2.1)).map fun outcome =>
        outcome.getD (.failed (r.2.2.getD code)))) := by
  induction domains generalizing index shard acks with
  | nil =>
    have all : ∀ outcome ∈ table fitting acks, outcome.isSome = true := by
      intro outcome among
      obtain ⟨⟨offer, nth⟩, hitem, rfl⟩ := List.mem_map.mp among
      have here := List.mem_zipIdx_iff_getElem?.mp hitem
      have covers := (covered offer (List.mem_of_getElem? here)).resolve_left List.not_mem_nil
      exact covers.outcome here
    change flushBundles weather index [] [] shard (table fitting acks) =
      (shard, .ok ((table fitting (acks ++ [])).map _))
    rw [List.append_nil, flushBundles, collected_eq _ all]
  | cons domain rest ih =>
    obtain ⟨sound', -, answers⟩ := Shard.flush_spec sound (weather index) (bundle domain)
    unfold replies
    rw [List.map_cons, List.map_cons]
    unfold flushBundles
    rcases hflush : shard.flush (weather index) (bundle domain) with ⟨shard', error | ack⟩
    · dsimp only
      rw [List.append_nil]
      rfl
    · rw [hflush] at sound' answers
      have length := (answers ack rfl).1.trans (sizes domain)
      have split := List.nodup_cons.mp once
      dsimp only
      rw [routed_table (new domain (List.mem_cons_self ..)) length]
      dsimp only
      have apart {other : KeyDomain} (h : other ≠ domain) :
          (acks ++ [(domain, ack)]).lookup other = acks.lookup other := by
        have differs : (other == domain) = false := by simpa using h
        rw [List.lookup_append, List.lookup_cons, differs]
        simp
      have here : (acks ++ [(domain, ack)]).lookup domain = some ack := by
        rw [List.lookup_append, new domain (List.mem_cons_self ..)]
        simp
      have more := @ih (index + 1) shard' (acks ++ [(domain, ack)]) sound' split.2
        (fun other h => by
          rw [apart fun same => split.1 (same ▸ h)]
          exact new other (List.mem_cons_of_mem _ h))
        (fun offer h => by
          by_cases same : offer.domain = domain
          · exact .inr ⟨ack, by rw [same, here], by rw [same]; exact length⟩
          · rcases covered offer h with among | ⟨ack', hack', length'⟩
            · exact .inl ((List.mem_cons.mp among).resolve_left same)
            · exact .inr ⟨ack', by rw [apart same, hack'], length'⟩)
      dsimp only at more
      rw [more, List.append_assoc]
      rfl

end

theorem built_spans {offers : List Offered} (fit : ∀ offer ∈ offers, offer.fits = true) :
    (built offers).regions.length = (built offers).producers.length ∧
      List.Forall₂ (fun (offer : Offered) span => ∃ bytes, span = offer.record.span bytes) offers
        (spansOf (built offers)) := by
  induction offers using List.reverseRecOn with
  | nil => exact ⟨rfl, .nil⟩
  | append_singleton before offer ih =>
    obtain ⟨lengths, spans⟩ := ih fun other h => fit other (List.mem_append_left _ h)
    have fits := fit offer (by simp)
    rw [built_snoc]
    rcases pushRegion_cases (built before) offer.record offer.region with
      ⟨error, alone, -⟩ | ⟨one, bytes, bundle, -, here, grown⟩
    · unfold Offered.fits at fits
      rw [alone] at fits
      cases fits
    · rw [here]
      obtain ⟨lengths', more⟩ := grown lengths
      dsimp only
      rw [more]
      exact ⟨lengths', List.rel_append spans (.cons ⟨bytes, rfl⟩ .nil)⟩

/-- The bundle of a domain, filled with its share of the regions that fit. -/
def bundleOf (fitting : List Offered) (domain : KeyDomain) : BundleBuilder :=
  built ((rowsOf fitting domain).map Prod.fst)

theorem bundleOf_spans {offers : List Offered} (domain : KeyDomain) :
    List.Forall₂ (fun (row : Offered × Nat) span => ∃ bytes, span = row.1.record.span bytes)
      (rowsOf (offers.filter Offered.fits) domain)
      (spansOf (bundleOf (offers.filter Offered.fits) domain)) := by
  have all : ∀ offer ∈ (rowsOf (offers.filter Offered.fits) domain).map Prod.fst,
      offer.fits = true := by
    intro offer h
    obtain ⟨⟨_, nth⟩, hrow, rfl⟩ := List.mem_map.mp h
    exact List.of_mem_filter (List.mem_of_getElem? (mem_rowsOf.mp hrow).1)
  exact List.forall₂_map_left_iff.mp (built_spans all).2

/-- What the flushes decide about the regions that fit, from the domains that can be sealed. -/
def settled (weather : Nat → Weather) (shard : Shard) (fitting : List Offered)
    (domains : List KeyDomain) : List PushOutcome :=
  let r := replies weather (bundleOf fitting) 0 domains shard
  (table fitting r.2.1).map fun outcome =>
    outcome.getD (.failed (r.2.2.getD ErrorCode.notEnoughReplicas))

theorem pending_bundles (pass : Pass) : pass.pending.bundles =
    (keysOf Offered.domain pass.offers).map (bundleOf (pass.offers.filter Offered.fits)) := by
  unfold Pass.pending bundleOf
  dsimp only
  exact List.map_congr_left fun domain _ => by rw [inDomain_eq]

/-- The domains whose bundles are sent, in the order they are sent in. -/
def sent (offers : List Offered) : List KeyDomain :=
  lead Offered.domain (seals (bundleOf (offers.filter Offered.fits))) offers

theorem lookup_of_mem_prefix {acks : List (KeyDomain × CommitAck)} {domain : KeyDomain}
    (h : domain ∈ acks.map Prod.fst) : ∃ ack, acks.lookup domain = some ack ∧ (domain, ack) ∈ acks := by
  induction acks with
  | nil => cases h
  | cons reply rest ih =>
    obtain ⟨domain', ack⟩ := reply
    by_cases same : domain = domain'
    · subst same
      exact ⟨ack, List.lookup_cons_self, List.mem_cons_self ..⟩
    · have apart : (domain == domain') = false := by simpa using same
      obtain ⟨ack', found, among⟩ := ih ((List.mem_cons.mp h).resolve_left same)
      exact ⟨ack', by rw [List.lookup_cons, apart]; exact found, List.mem_cons_of_mem _ among⟩

/-- The flush of what a pass leaves. -/
theorem flush_pending {shard : Shard} (sound : shard.Sound) (weather : Nat → Weather)
    (pass : Pass) : ∃ later, shard.Extends later ∧ flush weather shard pass.pending =
      (later, .ok (settled weather shard (pass.offers.filter Offered.fits) (sent pass.offers))) ∧
      ∀ reply ∈ (replies weather (bundleOf (pass.offers.filter Offered.fits)) 0 (sent pass.offers)
        shard).2.1,
        later.Answers (spansOf (bundleOf (pass.offers.filter Offered.fits) reply.1)) reply.2 := by
  have inside : ∀ offer ∈ pass.offers.filter Offered.fits,
      offer.domain ∈ keysOf Offered.domain pass.offers := fun offer h =>
    mem_keysOf.mpr (List.mem_map_of_mem (List.mem_of_mem_filter h))
  have routes : pass.pending.routes = (keysOf Offered.domain pass.offers).map fun domain =>
      (rowsOf (pass.offers.filter Offered.fits) domain).map Prod.snd := rfl
  have count : pass.pending.pushed = (pass.offers.filter Offered.fits).length := rfl
  unfold flush
  rw [count, pending_bundles, routes]
  unfold sent lead
  generalize hfitting : pass.offers.filter Offered.fits = fitting at *
  have sizes : ∀ domain, (spansOf (bundleOf fitting domain)).length =
      (rowsOf fitting domain).length := fun domain => by
    rw [← hfitting]
    exact (bundleOf_spans domain).length_eq.symm
  have once := @nodup_keysOf _ _ _ Offered.domain pass.offers
  generalize keysOf Offered.domain pass.offers = domains at *
  obtain ⟨same, code⟩ := @replies_lead weather (bundleOf fitting) 0 domains shard
  by_cases nothing : fitting.length = 0
  · rw [if_pos nothing]
    rw [List.length_eq_zero_iff] at nothing
    subst nothing
    have none : domains.takeWhile (seals (bundleOf [])) = [] := by
      cases domains with
      | nil => rfl
      | cons domain rest =>
        have bad : seals (bundleOf []) domain = false := rfl
        rw [List.takeWhile_cons_of_neg (by simp [bad])]
    rw [none]
    exact ⟨shard, .refl shard, rfl, fun reply h => absurd h List.not_mem_nil⟩
  · rw [if_neg nothing, ← table_nil]
    have filled := @flushBundles_eq weather (bundleOf fitting) fitting sizes
      ErrorCode.notEnoughReplicas 0 domains shard [] sound once (fun _ _ => rfl)
      fun offer h => .inl (inside offer h)
    obtain ⟨grown, answers⟩ := @replies_answer weather (bundleOf fitting) 0 domains shard sound
    refine ⟨_, grown, filled.trans ?_, fun reply h => answers reply (same ▸ h)⟩
    congr 2
    unfold settled
    dsimp only
    rw [List.nil_append, same]
    rcases code with whole | failing
    · -- Nothing failed, so every region has its outcome already.
      refine List.map_congr_left fun outcome among => ?_
      obtain ⟨⟨offer, nth⟩, hitem, rfl⟩ := List.mem_map.mp among
      have here := List.mem_zipIdx_iff_getElem?.mp hitem
      have acked : offer.domain ∈ (replies weather (bundleOf fitting) 0 domains shard).2.1.map
          Prod.fst := by
        rw [replies_complete whole]
        exact inside offer (List.mem_of_getElem? here)
      obtain ⟨ack, found, hack⟩ := lookup_of_mem_prefix acked
      have covers : Covers fitting (replies weather (bundleOf fitting) 0 domains shard).2.1
          offer.domain := ⟨ack, found, (answers _ hack).1.trans (sizes offer.domain)⟩
      rw [← same]
      obtain ⟨outcome, houtcome⟩ := Option.isSome_iff_exists.mp (covers.outcome here)
      rw [houtcome]
      rfl
    · rw [failing]
      rfl

/-- A region told an offset has it for good. -/
theorem settled_assigned {weather : Nat → Weather} {shard later : Shard} {offers : List Offered}
    {domains : List KeyDomain} (answers : ∀ reply ∈ (replies weather
      (bundleOf (offers.filter Offered.fits)) 0 domains shard).2.1,
      later.Answers (spansOf (bundleOf (offers.filter Offered.fits) reply.1)) reply.2)
    {nth base : Nat} {offer : Offered} (h : (offers.filter Offered.fits)[nth]? = some offer)
    (told : (settled weather shard (offers.filter Offered.fits) domains)[nth]? =
      some (.assigned base)) :
    ∃ bytes, CoordinatorLoop.Acknowledged later.journaled later.own (offer.record.span bytes) base := by
  unfold settled at told
  dsimp only at told
  rw [List.getElem?_map, getElem?_table _ h, Option.map_some, Option.some_inj] at told
  unfold outcomeOf at told
  cases found : (replies weather (bundleOf (offers.filter Offered.fits)) 0 domains
      shard).2.1.lookup offer.domain with
  | none =>
    rw [found] at told
    cases told
  | some ack =>
    rw [found, Option.bind_some] at told
    have among : (offer.domain, ack) ∈ (replies weather (bundleOf (offers.filter Offered.fits)) 0
        domains shard).2.1 := by
      obtain ⟨before, after, split, -⟩ := List.lookup_eq_some_iff.mp found
      rw [split]
      simp
    obtain ⟨length, assigned⟩ := answers _ among
    cases said : ack.outcomes[localPlace (offers.filter Offered.fits) offer nth]? with
    | none =>
      rw [said] at told
      cases told
    | some outcome =>
      rw [said] at told
      cases outcome with
      | rejected reason => cases reason <;> cases told
      | assigned assignment =>
        obtain rfl : assignment.baseOffset = base := PushOutcome.assigned.inj told
        have hrow := row_localPlace h
        obtain ⟨hlength, spans⟩ := List.forall₂_iff_get.mp (@bundleOf_spans offers offer.domain)
        obtain ⟨inside, hget⟩ := List.getElem?_eq_some_iff.mp hrow
        obtain ⟨bytes, hspan⟩ := spans _ inside (hlength ▸ inside)
        refine ⟨bytes, assigned _ assignment _ said ?_⟩
        rw [List.getElem?_eq_some_iff]
        refine ⟨hlength ▸ inside, ?_⟩
        rw [List.get_eq_getElem, List.get_eq_getElem, hget] at hspan
        exact hspan

theorem failureCode_ne (error : FlushError) : failureCode error ≠ ErrorCode.none := by
  cases error with
  | store source => exact show ErrorCode.notEnoughReplicas ≠ ErrorCode.none by decide
  | commit source => exact show ErrorCode.leaderNotAvailable ≠ ErrorCode.none by decide

theorem replies_code {weather : Nat → Weather} {bundle : KeyDomain → BundleBuilder} {index : Nat}
    {domains : List KeyDomain} {shard : Shard} {code : Int}
    (h : (replies weather bundle index domains shard).2.2 = some code) : code ≠ ErrorCode.none := by
  induction domains generalizing index shard with
  | nil => cases h
  | cons domain rest ih =>
    unfold replies at h
    rcases hflush : shard.flush (weather index) (bundle domain) with ⟨shard', error | ack⟩
    · rw [hflush] at h
      cases h
      exact failureCode_ne error
    · rw [hflush] at h
      exact ih h

/-- A region is told what its span was answered, or the code its flush, or one before, failed with. -/
theorem settled_cases {weather : Nat → Weather} {shard : Shard} {fitting : List Offered}
    {domains : List KeyDomain} {nth : Nat} {outcome : PushOutcome}
    (h : (settled weather shard fitting domains)[nth]? = some outcome) :
    (∃ answered, outcome = .ofSpan answered) ∨
      ∃ code, code ≠ ErrorCode.none ∧ outcome = .failed code := by
  unfold settled table at h
  dsimp only at h
  rw [List.getElem?_map, List.getElem?_map, Option.map_map, Option.map_eq_some_iff] at h
  obtain ⟨item, -, rfl⟩ := h
  dsimp only [Function.comp_apply]
  unfold outcomeOf
  cases (replies weather (bundleOf fitting) 0 domains shard).2.1.lookup item.1.domain with
  | some ack =>
    rw [Option.bind_some]
    cases ack.outcomes[localPlace fitting item.1 item.2]? with
    | some answered => exact .inl ⟨answered, rfl⟩
    | none =>
      right
      cases hcode : (replies weather (bundleOf fitting) 0 domains shard).2.2 with
      | none => exact ⟨_, by decide, rfl⟩
      | some code => exact ⟨code, replies_code hcode, rfl⟩
  | none =>
    right
    cases hcode : (replies weather (bundleOf fitting) 0 domains shard).2.2 with
    | none => exact ⟨_, by decide, rfl⟩
    | some code => exact ⟨code, replies_code hcode, rfl⟩

/-- What meets the flushes from one on is nothing to the domains before it. -/
theorem settled_earlier {weather weather' : Nat → Weather} {upto index nth : Nat} {shard : Shard}
    {offers : List Offered} {domains keys : List KeyDomain} {offer : Offered} (sound : shard.Sound)
    (same : ∀ index, index < upto → weather' index = weather index) (inside : index < upto)
    (once : keys.Nodup) (front : domains.IsPrefix keys) (h : (offers.filter Offered.fits)[nth]? = some offer)
    (place : keys[index]? = some offer.domain) :
    (settled weather' shard (offers.filter Offered.fits) domains)[nth]? =
      (settled weather shard (offers.filter Offered.fits) domains)[nth]? := by
  obtain ⟨-, answers⟩ := @replies_answer weather (bundleOf (offers.filter Offered.fits)) 0 domains shard
    sound
  have row := row_localPlace h
  have sizes := (@bundleOf_spans offers offer.domain).length_eq
  generalize offers.filter Offered.fits = fitting at *
  obtain ⟨taken, code⟩ := @replies_earlier weather (bundleOf fitting) weather' upto 0 same domains shard
  rw [Nat.sub_zero] at taken code
  -- Within an order of replies the domain stands early, or not at all.
  have early (weather : Nat → Weather) :
      (replies weather (bundleOf fitting) 0 domains shard).2.1.lookup offer.domain =
        ((replies weather (bundleOf fitting) 0 domains shard).2.1.take upto).lookup offer.domain ∧
      ((replies weather (bundleOf fitting) 0 domains shard).2.1.lookup offer.domain = none →
        (replies weather (bundleOf fitting) 0 domains shard).2.1.length < upto) := by
    have along := (@replies_domains weather (bundleOf fitting) 0 domains shard).trans front
    generalize (replies weather (bundleOf fitting) 0 domains shard).2.1 = acks at *
    obtain ⟨rest, hrest⟩ := along
    refine ⟨?_, ?_⟩
    · have late : (acks.drop upto).lookup offer.domain = none := by
        rw [List.lookup_eq_none_iff]
        intro reply among
        obtain ⟨later, hlater⟩ := List.mem_iff_getElem?.mp among
        rw [List.getElem?_drop] at hlater
        have there : keys[upto + later]? = some reply.1 := by
          rw [← hrest, List.getElem?_append_left, List.getElem?_map, hlater]
          · rfl
          · rw [List.length_map]
            exact (List.getElem?_eq_some_iff.mp hlater).1
        have differ : offer.domain ≠ reply.1 := by
          intro eq
          rw [← eq] at there
          obtain ⟨hi, hk⟩ := List.getElem?_eq_some_iff.mp place
          obtain ⟨hj, hk'⟩ := List.getElem?_eq_some_iff.mp there
          have := once.getElem_inj_iff.mp (hk.trans hk'.symm)
          omega
        simpa using differ
      conv_lhs => rw [← List.take_append_drop upto acks]
      rw [List.lookup_append, late, Option.or_none]
    · intro missing
      by_contra long
      have there : (acks.map Prod.fst)[index]? = some offer.domain := by
        rw [← place, ← hrest, List.getElem?_append_left]
        rw [List.length_map]
        omega
      obtain ⟨ack, found, -⟩ := lookup_of_mem_prefix (List.mem_of_getElem? there)
      rw [missing] at found
      cases found
  have alike : (replies weather' (bundleOf fitting) 0 domains shard).2.1.lookup offer.domain =
      (replies weather (bundleOf fitting) 0 domains shard).2.1.lookup offer.domain := by
    rw [(early weather').1, (early weather).1, taken]
  unfold settled
  dsimp only
  rw [List.getElem?_map, List.getElem?_map, getElem?_table _ h, getElem?_table _ h]
  unfold outcomeOf
  rw [alike]
  cases found : (replies weather (bundleOf fitting) 0 domains shard).2.1.lookup offer.domain with
  | none => rw [code ((early weather).2 found)]
  | some ack =>
    have among : (offer.domain, ack) ∈
        (replies weather (bundleOf fitting) 0 domains shard).2.1 := by
      obtain ⟨before, after, split, -⟩ := List.lookup_eq_some_iff.mp found
      rw [split]
      simp
    have covered : localPlace fitting offer nth < ack.outcomes.length := by
      rw [(answers _ among).1, ← sizes]
      exact (List.getElem?_eq_some_iff.mp row).1
    rw [Option.bind_some, List.getElem?_eq_getElem covered]
    rfl

def fair : Weather := ⟨.ok ⟨"o"⟩, .ok (), [], true, 0, .ok (), true⟩

def stormy : Weather := { fair with put := .error .transient }

def fairFor (flushes : Nat) (index : Nat) : Weather := if index < flushes then fair else stormy

theorem flush_fair {shard : Shard} {bundle : BundleBuilder} {bound : Nat}
    (within : shard.loop.allocator.Within bound)
    (room : bound + Allocator.totalCount (spansOf bundle) ≤ i64Max)
    (versions : shard.loop.allocator.nextVersion + 1 ≤ u64Max) (good : bundle.seal.isOk = true) :
    ∃ later ack, shard.flush fair bundle = (later, .ok ack) ∧
      later.loop.allocator.Within (bound + Allocator.totalCount (spansOf bundle)) ∧
      later.loop.allocator.nextVersion ≤ shard.loop.allocator.nextVersion + 1 := by
  unfold Shard.flush
  cases hseal : bundle.seal with
  | error source =>
    rw [hseal] at good
    cases good
  | ok written =>
    have spans : written.spans = spansOf bundle := by
      unfold BundleBuilder.seal at hseal
      split at hseal
      · cases hseal
      · obtain ⟨_, -, h⟩ := Checked.bind_eq_ok.mp hseal
        cases h
        rfl
    obtain ⟨loop, ack, hserve, within', version⟩ :=
      CoordinatorLoop.serve_within within ⟨"o"⟩ 0 room versions
    have committed : (shard.commit fair ⟨"o"⟩ written.spans).1.loop = loop ∧
        (shard.commit fair ⟨"o"⟩ written.spans).2 = .ok ack := by
      rw [spans]
      unfold Shard.commit
      simp [fair, hserve]
    rcases hcommit : shard.commit fair ⟨"o"⟩ written.spans with ⟨later, answer⟩
    rw [hcommit] at committed
    obtain ⟨rfl, rfl⟩ := committed
    refine ⟨later, ack, ?_, within', version⟩
    simp only [fair, List.foldl_nil] at hcommit ⊢
    rw [hcommit]

theorem flush_stormy {shard : Shard} {bundle : BundleBuilder} :
    ∃ later source, shard.flush stormy bundle = (later, .error (.store source)) := by
  unfold Shard.flush
  cases bundle.seal with
  | error source => exact ⟨_, _, rfl⟩
  | ok written => exact ⟨_, _, rfl⟩

/-- So many bundles as are flushed in fair weather are acknowledged, and the next one fails. -/
theorem replies_fairFor {bundle : KeyDomain → BundleBuilder} {flushes index bound : Nat}
    {domains : List KeyDomain} {shard : Shard} (within : shard.loop.allocator.Within bound)
    (room : bound + (domains.map fun domain => Allocator.totalCount (spansOf (bundle domain))).sum ≤
      i64Max)
    (versions : shard.loop.allocator.nextVersion + domains.length ≤ u64Max)
    (good : ∀ domain ∈ domains, seals bundle domain = true) :
    (replies (fairFor flushes) bundle index domains shard).2.1.map Prod.fst =
        domains.take (flushes - index) ∧
      (replies (fairFor flushes) bundle index domains shard).2.2.getD ErrorCode.notEnoughReplicas =
        ErrorCode.notEnoughReplicas := by
  induction domains generalizing index bound shard with
  | nil => exact ⟨by simp [replies], rfl⟩
  | cons domain rest ih =>
    simp only [List.map_cons, List.sum_cons, List.length_cons] at room versions
    unfold replies fairFor
    by_cases inside : index < flushes
    · obtain ⟨later, ack, hflush, within', version⟩ := @flush_fair shard (bundle domain) bound within
        (by omega) (by omega) (good domain (List.mem_cons_self ..))
      have left : flushes - index = (flushes - (index + 1)) + 1 := by omega
      rw [if_pos inside, hflush, left, List.take_succ_cons]
      have more := @ih (index + 1) _ later within' (by omega) (by omega)
        fun other h => good other (List.mem_cons_of_mem _ h)
      exact ⟨congrArg (domain :: ·) more.1, more.2⟩
    · obtain ⟨later, source, hflush⟩ := @flush_stormy shard (bundle domain)
      have none : flushes - index = 0 := by omega
      rw [if_neg inside, hflush, none]
      exact ⟨rfl, rfl⟩

/-- The records some regions carry. -/
def carried (offers : List Offered) : Nat :=
  (offers.map fun offer => offer.record.pushed.count).sum

theorem totalCount_bundleOf (offers : List Offered) (domain : KeyDomain) :
    Allocator.totalCount (spansOf (bundleOf (offers.filter Offered.fits) domain)) =
      ((rowsOf (offers.filter Offered.fits) domain).map fun row =>
        row.1.record.pushed.count).sum := by
  have spans := @bundleOf_spans offers domain
  generalize spansOf (bundleOf (offers.filter Offered.fits) domain) = spans at *
  generalize rowsOf (offers.filter Offered.fits) domain = rows at *
  unfold Allocator.totalCount
  induction spans with
  | nil => rfl
  | cons one _ ih =>
    obtain ⟨bytes, rfl⟩ := one
    rw [List.map_cons, List.sum_cons, List.map_cons, List.sum_cons, ih]
    rfl

/-- The bundles of different domains carry different regions. -/
theorem sum_totalCount_le (offers : List Offered) {domains : List KeyDomain} (once : domains.Nodup) :
    (domains.map fun domain => Allocator.totalCount
      (spansOf (bundleOf (offers.filter Offered.fits) domain))).sum ≤
      carried (offers.filter Offered.fits) := by
  generalize hfitting : offers.filter Offered.fits = fitting
  have rows : (domains.flatMap (rowsOf fitting)).Nodup := by
    refine List.nodup_flatMap.mpr ⟨fun domain _ => .of_map Prod.snd (nodup_places fitting domain), ?_⟩
    refine once.imp fun {domain domain'} differ row among among' => ?_
    exact differ ((mem_rowsOf.mp among).2.symm.trans (mem_rowsOf.mp among').2)
  have inside : domains.flatMap (rowsOf fitting) ⊆ fitting.zipIdx := by
    intro row among
    obtain ⟨domain, -, h⟩ := List.mem_flatMap.mp among
    exact List.mem_of_mem_filter h
  obtain ⟨some, perm, sub⟩ := rows.subperm inside
  have fewer := (sub.map fun row => row.1.record.pushed.count).sum_le_sum fun _ _ => Nat.zero_le _
  rw [(perm.map _).sum_eq, List.map_flatMap, List.flatMap_def, List.sum_flatten,
    List.map_map] at fewer
  have whole : (fitting.zipIdx.map fun row => row.1.record.pushed.count).sum = carried fitting := by
    unfold carried
    conv_rhs => rw [← List.zipIdx_map_fst 0 fitting]
    rw [List.map_map]
    rfl
  rw [whole] at fewer
  refine Nat.le_trans (Nat.le_of_eq ?_) fewer
  congr 1
  refine List.map_congr_left fun domain _ => ?_
  rw [← hfitting, totalCount_bundleOf]
  rfl

theorem settled_fairFor {offers : List Offered} {domains : List KeyDomain} {flushes nth : Nat}
    {offer : Offered} (once : domains.Nodup)
    (room : carried (offers.filter Offered.fits) ≤ i64Max) (few : domains.length ≤ u64Max)
    (good : ∀ domain ∈ domains, seals (bundleOf (offers.filter Offered.fits)) domain = true)
    (h : (offers.filter Offered.fits)[nth]? = some offer) :
    (offer.domain ∉ domains.take flushes ∧
      (settled (fairFor flushes) {} (offers.filter Offered.fits) domains)[nth]? =
        some (.failed ErrorCode.notEnoughReplicas)) ∨
    offer.domain ∈ domains.take flushes ∧ ∃ outcome,
      (settled (fairFor flushes) {} (offers.filter Offered.fits) domains)[nth]? =
        some (.ofSpan outcome) := by
  have start : ({} : Shard).loop.allocator.Within 0 := fun key => Nat.le_refl 0
  obtain ⟨acked, code⟩ := @replies_fairFor (bundleOf (offers.filter Offered.fits)) flushes 0 0 domains
    {} start (by rw [Nat.zero_add]; exact (sum_totalCount_le offers once).trans room)
    (by simpa using few) good
  obtain ⟨-, answers⟩ := @replies_answer (fairFor flushes) (bundleOf (offers.filter Offered.fits)) 0
    domains {} (Shard.sound_after [])
  unfold settled
  dsimp only
  rw [code, List.getElem?_map, getElem?_table _ h, Option.map_some]
  rw [Nat.sub_zero] at acked
  rw [← acked]
  by_cases among : offer.domain ∈ (replies (fairFor flushes)
      (bundleOf (offers.filter Offered.fits)) 0 domains {}).2.1.map Prod.fst
  · obtain ⟨ack, found, hack⟩ := lookup_of_mem_prefix among
    have length := (answers _ hack).1.trans (@bundleOf_spans offers offer.domain).length_eq.symm
    have inside : localPlace (offers.filter Offered.fits) offer nth < ack.outcomes.length := by
      rw [length]
      exact (List.getElem?_eq_some_iff.mp (row_localPlace h)).1
    refine .inr ⟨among, ack.outcomes[localPlace (offers.filter Offered.fits) offer nth], ?_⟩
    simp [outcomeOf, found, inside]
  · refine .inl ⟨among, ?_⟩
    have missing : (replies (fairFor flushes) (bundleOf (offers.filter Offered.fits)) 0 domains
        {}).2.1.lookup offer.domain = none := by
      rw [List.lookup_eq_none_iff]
      intro reply hreply
      have differ : offer.domain ≠ reply.1 := fun same =>
        among (List.mem_map.mpr ⟨reply, hreply, same.symm⟩)
      simpa using differ
    simp [outcomeOf, missing]

theorem verdict_ofSpan_ne (outcome : SpanOutcome) {nth : Nat} {some_ failed : List PushOutcome}
    (h : some_[nth]? = some (.ofSpan outcome))
    (h' : failed[nth]? = some (.failed ErrorCode.notEnoughReplicas)) :
    verdict (.pushed nth) (.ok some_) ≠ verdict (.pushed nth) (.ok failed) := by
  simp only [verdict, h, h']
  cases outcome with
  | assigned assignment => exact fun same => absurd (Prod.mk.inj same).1 (by decide)
  | rejected reason => cases reason <;> exact fun same => absurd (Prod.mk.inj same).1 (by decide)

theorem exists_of_seals {fitting : List Offered} {domain : KeyDomain}
    (good : seals (bundleOf fitting) domain = true) :
    ∃ (nth : Nat) (offer : Offered), fitting[nth]? = some offer ∧ offer.domain = domain := by
  cases hrows : rowsOf fitting domain with
  | nil =>
    unfold seals bundleOf at good
    rw [hrows] at good
    cases good
  | cons row rest =>
    have here := mem_rowsOf.mp (hrows ▸ List.mem_cons_self ..)
    exact ⟨row.2, row.1, here⟩

/-- Two orders of sending are told apart by some weather. -/
theorem settled_ne {offers : List Offered} {domains domains' : List KeyDomain}
    (room : carried (offers.filter Offered.fits) ≤ i64Max)
    (few : domains.length ≤ u64Max ∧ domains'.length ≤ u64Max)
    (once : domains.Nodup) (once' : domains'.Nodup) (differ : domains ≠ domains')
    (good : ∀ domain ∈ domains, seals (bundleOf (offers.filter Offered.fits)) domain = true)
    (good' : ∀ domain ∈ domains', seals (bundleOf (offers.filter Offered.fits)) domain = true) :
    ∃ flushes nth, nth < (offers.filter Offered.fits).length ∧
      verdict (.pushed nth)
        (.ok (settled (fairFor flushes) {} (offers.filter Offered.fits) domains)) ≠
      verdict (.pushed nth)
        (.ok (settled (fairFor flushes) {} (offers.filter Offered.fits) domains')) := by
  obtain ⟨flushes, domain, told | told⟩ := exists_take_ne once once' differ
  · obtain ⟨nth, offer, hoffer, rfl⟩ := exists_of_seals (good domain (List.mem_of_mem_take told.1))
    have first := @settled_fairFor _ _ flushes _ _ once room few.1 good hoffer
    have second := @settled_fairFor _ _ flushes _ _ once' room few.2 good' hoffer
    obtain ⟨-, outcome, houtcome⟩ := first.resolve_left fun h => h.1 told.1
    obtain ⟨-, failed⟩ := second.resolve_right fun h => told.2 h.1
    exact ⟨flushes, nth, (List.getElem?_eq_some_iff.mp hoffer).1,
      verdict_ofSpan_ne outcome houtcome failed⟩
  · obtain ⟨nth, offer, hoffer, rfl⟩ := exists_of_seals (good' domain (List.mem_of_mem_take told.1))
    have first := @settled_fairFor _ _ flushes _ _ once room few.1 good hoffer
    have second := @settled_fairFor _ _ flushes _ _ once' room few.2 good' hoffer
    obtain ⟨-, failed⟩ := first.resolve_right fun h => told.2 h.1
    obtain ⟨-, outcome, houtcome⟩ := second.resolve_left fun h => h.1 told.1
    exact ⟨flushes, nth, (List.getElem?_eq_some_iff.mp hoffer).1,
      (verdict_ofSpan_ne outcome houtcome failed).symm⟩

end Oqueue.Broker.Produce
