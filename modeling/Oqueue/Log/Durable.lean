import Oqueue.Log.World
import Oqueue.Log.Checkpointing

/-!
# The log survives its writers

What every waiting call and the writer may rely on, kept by each step of the
world. An `open` that returns has read the line as it stood at some moment of the
open's life, whatever was appended, folded and pruned beside it.
-/

namespace Oqueue.Log

variable {Entry : Type} {F : SegmentFormat Entry}

/-- A segment that was acknowledged, or that an earlier writer left. -/
def World.Settled (s : World Entry) (owner : Nat) (i : Nat) : Prop :=
  i ∈ s.acked ∨ ∃ x, s.line[i]? = some x ∧ x.1 < owner

/-- How far the bases, and the captures on their way to become one, may reach. -/
def Writer.limit (writer : Writer Entry) : Nat :=
  writer.state.elim writer.since State.nextSeq

structure Append.Fits (F : SegmentFormat Entry) (s : World Entry) (owner : Nat)
    (append : Append Entry) : Prop where
  le_length : append.seq ≤ s.line.length
  nonempty : append.entries ≠ []
  decodes : F.decode append.payload = .ok append.entries
  rising : Rising F ((s.segments.take append.seq).flatten ++ append.entries)
  settled : ∀ i < append.seq, s.Settled owner i

/-- The capture a checkpoint has not yet written a base from, or has just written. -/
def Checkpoint.capture? : Checkpoint → Option Capture
  | snapping capture => some capture
  | snapped capture => some capture
  | tailing capture _ => some capture
  | basing capture => some capture
  | based capture => some capture
  | retiring _ => none

/-- What holds at each place a call waits, of the store and of the writer it may be of. -/
def Call.Fits (F : SegmentFormat Entry) (s : World Entry) (since id : Nat) (owner : Option Nat) :
    Call Entry → Prop
  | opening reading => since ≤ s.line.length ∧ reading.Fits s.store s.segments since ∧
    ∀ writer, s.writer = some writer → owner = some writer.incarnation → writer.since ≤ since
  | opened state => state.Fits s.store s.segments ∧ since ≤ state.nextSeq ∧
    ∀ writer, s.writer = some writer → owner = some writer.incarnation → writer.since ≤ since
  | appending append => ∃ o, owner = some o ∧ append.Fits F s o ∧
    ∀ writer, s.writer = some writer → o = writer.incarnation → ∃ state,
      writer.state = some state ∧ (writer.waiting = some id → append.seq = state.nextSeq)
  | appended append => ∀ writer state, s.writer = some writer → owner = some writer.incarnation →
    writer.waiting = some id → writer.state = some state → append.seq = state.nextSeq ∧
      s.line[append.seq]? = some (writer.incarnation, append.entries)
  | refused => True
  | checkpointing checkpoint => checkpoint.Fits F s.store s.segments ∧
    ∀ writer capture, s.writer = some writer → checkpoint.capture? = some capture →
      capture.seq ≤ writer.limit

structure Writer.Fits (s : World Entry) (writer : Writer Entry) : Prop where
  latest : writer.incarnation + 1 = s.incarnations
  since_le : writer.since ≤ s.line.length
  bases : ∀ g base, s.store.bases g = some base → base.seq ≤ writer.limit
  unopened : writer.state = none → writer.waiting = none ∧ ∀ x ∈ s.line, x.1 < writer.incarnation
  opened : ∀ state, writer.state = some state → state.Fits s.store s.segments ∧
    ∀ i < state.nextSeq, s.Settled writer.incarnation i

structure World.Inv (F : SegmentFormat Entry) (since : Nat → Nat) (s : World Entry) : Prop where
  holds : s.store.Holds F s.segments
  calls : ∀ id owner call, s.calls id = some (owner, call) → call.Fits F s (since id) id owner
  owners : ∀ id o call, s.calls id = some (some o, call) → o < s.incarnations
  writers : ∀ x ∈ s.line, x.1 < s.incarnations
  writer : ∀ writer, s.writer = some writer → writer.Fits s
  acked : ∀ i ∈ s.acked, i < s.line.length
  order : ∀ i j x y, i < j → s.line[i]? = some x → s.line[j]? = some y → i ∈ s.acked ∨ x.1 < y.1

/-- How the store and the line may move under a waiting call. -/
structure World.Evolves (s s' : World Entry) : Prop where
  store : s.store.Evolves s.segments s'.store s'.segments
  line : s.line <+: s'.line
  acked : s.acked ⊆ s'.acked

namespace World

theorem Evolves.at_ {s s' : World Entry} (h : s.Evolves s') {i : Nat} {x : Nat × List Entry}
    (present : s.line[i]? = some x) : s'.line[i]? = some x := by
  obtain ⟨more, eq⟩ := h.line
  rw [← eq, List.getElem?_append_left (List.getElem?_eq_some_iff.mp present).1]
  exact present

theorem Evolves.settled {s s' : World Entry} (h : s.Evolves s') {owner i : Nat}
    (settled : s.Settled owner i) : s'.Settled owner i :=
  settled.imp (fun mem => h.acked mem) fun ⟨x, present, lt⟩ => ⟨x, h.at_ present, lt⟩

theorem Evolves.of_eq {s s' : World Entry} (store : s'.store = s.store) (line : s'.line = s.line)
    (acked : s'.acked = s.acked) : s.Evolves s' := by
  refine ⟨?_, line ▸ List.prefix_rfl, acked ▸ List.Subset.refl _⟩
  rw [segments, segments, store, line]
  exact ⟨fun _ _ same => same, fun _ _ => .inl, List.prefix_rfl⟩

theorem length_segments (s : World Entry) : s.segments.length = s.line.length := by
  simp [segments]

end World

structure Writer.Moves (id : Nat) (writer writer' : Writer Entry) : Prop where
  incarnation : writer'.incarnation = writer.incarnation
  since : writer'.since = writer.since
  limit : writer.limit ≤ writer'.limit
  state : writer.state.isSome → writer'.state.isSome
  waiting : writer'.waiting = some id → writer.waiting = some id ∧
    writer'.state.map State.nextSeq = writer.state.map State.nextSeq

/-- The only base a request writes is its own capture's. -/
theorem Store.serveCheckpoint_bases {store store' : Store} {checkpoint : Checkpoint}
    {out : Checkpoint ⊕ Error} (served : store.serveCheckpoint checkpoint = some (store', out)) :
    (∀ g base, store'.bases g = some base → store.bases g = some base ∨
      ∃ capture, checkpoint.capture? = some capture ∧ base.seq = capture.seq) ∧
    ∀ checkpoint', out = .inl checkpoint' → checkpoint'.capture? = checkpoint.capture? := by
  cases checkpoint with
  | snapping capture =>
    cases served
    refine ⟨fun g base present => .inl ?_, ?_⟩
    · split at present <;> exact present
    · rintro _ ⟨⟩
      rfl
  | tailing capture tail =>
    cases served
    refine ⟨fun g base present => .inl present, fun checkpoint' same => ?_⟩
    split at same <;> cases same
    rfl
  | basing capture =>
    simp only [serveCheckpoint] at served
    split at served
    · cases served
      refine ⟨fun g base present => ?_, ?_⟩
      · simp only [setBase, Function.update_apply] at present
        split at present
        · cases present
          exact .inr ⟨capture, rfl, rfl⟩
        · exact .inl present
      · rintro _ ⟨⟩
        rfl
    · cases served
      refine ⟨fun g base present => .inl present, ?_⟩
      rintro _ ⟨⟩
  | snapped capture => cases served
  | based capture => cases served
  | retiring retired => cases served

theorem State.resume_capture {state state' : State Entry} {checkpoint checkpoint' : Checkpoint}
    (resumed : state.resume checkpoint = some (state', checkpoint')) {capture : Capture}
    (captured : checkpoint'.capture? = some capture) : checkpoint.capture? = some capture := by
  cases checkpoint with
  | snapped earlier =>
    cases resumed
    exact captured
  | based earlier =>
    cases resumed
    cases captured
  | snapping earlier => cases resumed
  | tailing earlier tail => cases resumed
  | basing earlier => cases resumed
  | retiring retired => cases resumed

theorem Writer.Moves.refl (id : Nat) (writer : Writer Entry) : writer.Moves id writer :=
  ⟨rfl, rfl, le_refl _, fun opened => opened, fun same => ⟨same, rfl⟩⟩

theorem Append.Fits.evolve {s s' : World Entry} (h : s.Evolves s') {owner : Nat}
    {append : Append Entry} (fits : append.Fits F s owner) : append.Fits F s' owner where
  le_length := fits.le_length.trans h.line.length_le
  nonempty := fits.nonempty
  decodes := fits.decodes
  rising := by
    rw [h.store.take (by rw [s.length_segments]; exact fits.le_length)]
    exact fits.rising
  settled i lt := h.settled (fits.settled i lt)

theorem Call.Fits.move {s s' : World Entry} (holds : s.store.Holds F s.segments)
    (h : s.Evolves s') {since id : Nat} {owner : Option Nat} {call : Call Entry}
    (moves : ∀ writer', s'.writer = some writer' → ∃ writer, s.writer = some writer ∧
      writer.Moves id writer') (fits : call.Fits F s since id owner) :
    call.Fits F s' since id owner := by
  cases call with
  | opening reading =>
    refine ⟨fits.1.trans h.line.length_le, fits.2.1.evolve h.store, ?_⟩
    intro writer' writes own
    obtain ⟨writer, wrote, moved⟩ := moves writer' writes
    rw [moved.since]
    exact fits.2.2 writer wrote (moved.incarnation ▸ own)
  | opened state =>
    refine ⟨fits.1.evolve h.store, fits.2.1, ?_⟩
    intro writer' writes own
    obtain ⟨writer, wrote, moved⟩ := moves writer' writes
    rw [moved.since]
    exact fits.2.2 writer wrote (moved.incarnation ▸ own)
  | appending append =>
    obtain ⟨o, own, append_fits, at_⟩ := fits
    refine ⟨o, own, append_fits.evolve h, ?_⟩
    intro writer' writes same
    obtain ⟨writer, wrote, moved⟩ := moves writer' writes
    obtain ⟨state, opened, next⟩ := at_ writer wrote (moved.incarnation ▸ same)
    obtain ⟨state', opened'⟩ := Option.isSome_iff_exists.mp (moved.state (by simp [opened]))
    refine ⟨state', opened', fun waits => ?_⟩
    obtain ⟨waited, seqs⟩ := moved.waiting waits
    rw [opened, opened', Option.map_some, Option.map_some, Option.some_inj] at seqs
    rw [next waited, seqs]
  | appended append =>
    intro writer' state' writes own waits opened'
    obtain ⟨writer, wrote, moved⟩ := moves writer' writes
    obtain ⟨waited, seqs⟩ := moved.waiting waits
    rw [opened', Option.map_some, eq_comm] at seqs
    obtain ⟨state, opened, seqs⟩ := Option.map_eq_some_iff.mp seqs
    obtain ⟨at_, landed⟩ := fits writer state wrote (moved.incarnation ▸ own) waited opened
    exact ⟨at_.trans seqs, moved.incarnation ▸ h.at_ landed⟩
  | refused => trivial
  | checkpointing checkpoint =>
    refine ⟨fits.1.evolve holds h.store, ?_⟩
    intro writer' capture writes captured
    obtain ⟨writer, wrote, moved⟩ := moves writer' writes
    exact (fits.2 writer capture wrote captured).trans moved.limit

namespace World.Inv

variable {since : Nat → Nat} {s s' : World Entry} {id : Nat}

/-- A step of the world under calls and a writer that stay as they are. -/
theorem evolve (h : s.Inv F since) (evolves : s.Evolves s') (holds : s'.store.Holds F s'.segments)
    (calls : s'.calls = s.calls) (same : s'.writer = s.writer)
    (incarnations : s'.incarnations = s.incarnations) (acked : s'.acked = s.acked)
    (line : ∀ i x, s'.line[i]? = some x → s.line[i]? = some x ∨ i = s.line.length ∧
      x.1 < s.incarnations ∧ (∀ k < i, s.Settled x.1 k) ∧
      ∀ writer, s.writer = some writer → writer.state = none → x.1 < writer.incarnation)
    (bases : ∀ writer, s.writer = some writer → ∀ g base, s'.store.bases g = some base →
      base.seq ≤ writer.limit) : s'.Inv F since where
  holds := holds
  calls := by
    intro id owner call pending
    rw [calls] at pending
    refine (h.calls id owner call pending).move h.holds evolves fun writer writes => ?_
    exact ⟨writer, same ▸ writes, .refl id writer⟩
  owners := by
    rw [calls, incarnations]
    exact h.owners
  writers := by
    intro x mem
    obtain ⟨i, at_⟩ := List.mem_iff_getElem?.mp mem
    rw [incarnations]
    obtain old | ⟨-, lt, -⟩ := line i x at_
    · exact h.writers x (List.mem_of_getElem? old)
    · exact lt
  writer := by
    intro writer writes
    rw [same] at writes
    have fits := h.writer writer writes
    refine ⟨incarnations ▸ fits.latest, fits.since_le.trans evolves.line.length_le,
      bases writer writes, ?_, ?_⟩
    · intro unopened
      refine ⟨(fits.unopened unopened).1, fun x mem => ?_⟩
      obtain ⟨i, at_⟩ := List.mem_iff_getElem?.mp mem
      obtain old | ⟨-, -, -, silent⟩ := line i x at_
      · exact (fits.unopened unopened).2 x (List.mem_of_getElem? old)
      · exact silent writer writes unopened
    · intro state opened
      exact ⟨(fits.opened state opened).1.evolve evolves.store,
        fun i lt => evolves.settled ((fits.opened state opened).2 i lt)⟩
  acked := by
    rw [acked]
    exact fun i mem => (h.acked i mem).trans_le evolves.line.length_le
  order := by
    intro i j x y lt at_i at_j
    rw [acked]
    obtain old_j | ⟨rfl, -, settled, -⟩ := line j y at_j
    · obtain old_i | ⟨rfl, -⟩ := line i x at_i
      · exact h.order i j x y lt old_i old_j
      · have := (List.getElem?_eq_some_iff.mp old_j).1
        omega
    · obtain old_i | ⟨rfl, -⟩ := line i x at_i
      · refine (settled i lt).imp_right fun ⟨x', at_i', less⟩ => ?_
        rw [old_i, Option.some_inj] at at_i'
        exact at_i' ▸ less
      · omega

/-- A call may wait where it fits. -/
theorem setCall (h : s.Inv F since) (id : Nat) (since' : Nat)
    {call : Option (Option Nat × Call Entry)}
    (fits : ∀ owner c, call = some (owner, c) → c.Fits F s since' id owner)
    (owners : ∀ o c, call = some (some o, c) → o < s.incarnations) :
    (s.setCall id call).Inv F (Function.update since id since') where
  holds := h.holds
  calls := by
    intro id' owner c pending
    simp only [World.setCall, Function.update_apply] at pending ⊢
    have moved : ∀ {n}, c.Fits F s n id' owner → c.Fits F (s.setCall id call) n id' owner := by
      intro n fits
      have evolves : s.Evolves (s.setCall id call) := .of_eq rfl rfl rfl
      exact fits.move h.holds evolves fun writer writes => ⟨writer, writes, .refl id' writer⟩
    split at pending
    · rename_i same
      subst same
      rw [if_pos rfl]
      exact moved (fits owner c pending)
    · rename_i other
      rw [if_neg other]
      exact moved (h.calls id' owner c pending)
  owners := by
    intro id' o c pending
    simp only [World.setCall, Function.update_apply] at pending
    split at pending
    · exact owners o c pending
    · exact h.owners id' o c pending
  writers := h.writers
  writer writer writes := by
    have fits := h.writer writer writes
    exact ⟨fits.latest, fits.since_le, fits.bases, fits.unopened, fits.opened⟩
  acked := h.acked
  order := h.order

theorem dropCall (h : s.Inv F since) (id : Nat) :
    (s.setCall id none).Inv F since := by
  have fits : ∀ owner c, (none : Option (Option Nat × Call Entry)) = some (owner, c) →
      c.Fits F s (since id) id owner := nofun
  have kept := h.setCall id (since id) fits nofun
  rwa [Function.update_eq_self] at kept

/-- The writer may move where it fits and its calls do. -/
theorem setWriter (h : s.Inv F since) {writer' : Writer Entry} (acked : List Nat)
    (kept : s.acked ⊆ acked) (within : ∀ i ∈ acked, i < s.line.length)
    (moves : ∀ id, s.calls id ≠ none → ∃ writer, s.writer = some writer ∧
      writer.Moves id writer')
    (fits : writer'.Fits ({ s with acked }.setWriter writer')) :
    ({ s with acked }.setWriter writer').Inv F since where
  holds := h.holds
  calls := by
    intro id owner call pending
    have evolves : s.Evolves ({ s with acked }.setWriter writer') :=
      ⟨.refl _ _, List.prefix_rfl, kept⟩
    refine (h.calls id owner call pending).move h.holds evolves ?_
    rintro writer ⟨⟩
    exact moves id (by simp [show s.calls id = _ from pending])
  owners := h.owners
  writers := h.writers
  writer := by
    rintro writer ⟨⟩
    exact fits
  acked := within
  order i j x y lt at_i at_j := (h.order i j x y lt at_i at_j).imp_left fun mem => kept mem

/-- A segment of any writer, old or new, lands. -/
theorem land (h : s.Inv F since) {o : Nat} {append : Append Entry}
    (pending : s.calls id = some (some o, .appending append))
    (landed : s.land o append = some s') :
    s'.Inv F since ∧ s.Evolves s' ∧ (∀ writer state, s.writer = some writer →
      o = writer.incarnation → writer.waiting = some id → writer.state = some state →
      s'.line[append.seq]? = some (o, append.entries)) := by
  obtain ⟨_, ⟨⟩, fits, own⟩ := h.calls id _ _ pending
  simp only [World.land, Store.putSegment, Option.map_eq_some_iff, Option.ite_none_right_eq_some,
    Option.some_inj] at landed
  obtain ⟨store', ⟨absent, rfl⟩, rfl⟩ := landed
  have free := Option.isNone_iff_eq_none.mp absent
  by_cases at_end : append.seq = s.line.length
  · -- at the end of the line
    have segments_eq : (s.line ++ [(o, append.entries)]).map Prod.snd =
        s.segments ++ [append.entries] := by simp [World.segments]
    have full : s.segments.take append.seq = s.segments := by
      rw [at_end, ← s.length_segments, List.take_length]
    have rising := fits.rising
    rw [full] at rising
    have holds := h.holds.land (at_end.trans s.length_segments.symm) fits.nonempty fits.decodes
      rising
    simp only [if_pos at_end]
    have evolves : s.Evolves { s with
        store := s.store.setSegment append.seq (some append.payload)
        line := s.line ++ [(o, append.entries)] } := by
      refine ⟨⟨fun _ _ same => same, fun _ _ => .inl, ?_⟩, List.prefix_append _ _,
        List.Subset.refl _⟩
      rw [World.segments, World.segments, List.map_append]
      exact List.prefix_append _ _
    refine ⟨h.evolve evolves (by rw [World.segments, segments_eq]; exact holds) rfl rfl rfl rfl ?_
      ?_, evolves, ?_⟩
    · intro i x at_
      by_cases lt : i < s.line.length
      · rw [List.getElem?_append_left lt] at at_
        exact .inl at_
      · obtain ⟨bound, rfl⟩ := List.getElem?_eq_some_iff.mp at_
        obtain rfl : i = s.line.length := by simp at bound; omega
        refine .inr ⟨rfl, ?_⟩
        rw [List.getElem_append_right (le_refl _)]
        simp only [Nat.sub_self, List.getElem_cons_zero]
        refine ⟨h.owners id o _ pending, fun k lt => fits.settled k (at_end ▸ lt), ?_⟩
        intro writer writes unopened
        have latest := (h.writer writer writes).latest
        have below := h.owners id o _ pending
        have other : o ≠ writer.incarnation := by
          intro same
          obtain ⟨state, opened, -⟩ := own writer writes same
          simp [unopened] at opened
        omega
    · exact fun writer writes => (h.writer writer writes).bases
    · intro writer state writes same waits opened
      simp [at_end]
  · -- behind the newest base, where the segment was deleted
    have lt : append.seq < s.line.length := lt_of_le_of_ne fits.le_length at_end
    simp only [if_neg at_end]
    obtain ⟨g, base, present, behind⟩ :=
      h.holds.behind_base (by rwa [s.length_segments]) free
    have evolves : s.Evolves { s with
        store := s.store.setSegment append.seq (some append.payload) } :=
      ⟨.segments s.store s.segments _, List.prefix_rfl, List.Subset.refl _⟩
    refine ⟨h.evolve evolves (h.holds.setSegment_behind present behind _) rfl rfl rfl rfl
      (fun i x at_ => .inl at_) (fun writer writes => (h.writer writer writes).bases), evolves, ?_⟩
    -- an append its writer still waits for is past every base
    intro writer state writes same waits opened
    obtain ⟨state', opened', next⟩ := own writer writes same
    rw [opened, Option.some_inj] at opened'
    subst opened'
    have reach := (h.writer writer writes).bases g base present
    have := next waits
    simp only [Writer.limit, opened, Option.elim_some] at reach
    omega

theorem serve (h : s.Inv F since) {owner : Option Nat} {call : Call Entry}
    (pending : s.calls id = some (owner, call)) {next : Option (Call Entry)}
    (served : s.serve F owner call = some (s', next)) :
    s'.Inv F since ∧ s'.incarnations = s.incarnations ∧
      ∀ c, next = some c → c.Fits F s' (since id) id owner := by
  have fits := h.calls id owner call pending
  cases call with
  | opening reading =>
    obtain ⟨le, reading_fits, own⟩ := fits
    have after := reading_fits.serve h.holds (by rwa [s.length_segments])
    simp only [World.serve] at served
    split at served
    · rename_i reading' reads
      cases served
      refine ⟨h, rfl, ?_⟩
      rintro _ ⟨⟩
      exact ⟨le, after.1 reading' reads, own⟩
    · rename_i state reads
      cases served
      refine ⟨h, rfl, ?_⟩
      rintro _ ⟨⟩
      exact ⟨(after.2 state reads).1, (after.2 state reads).2, own⟩
    · cases served
      exact ⟨h, rfl, nofun⟩
  | appending append =>
    obtain ⟨o, rfl, append_fits, own⟩ := fits
    simp only [World.serve, Option.bind_some] at served
    split at served
    · rename_i landed lands
      cases served
      obtain ⟨kept, evolves, at_⟩ := h.land pending lands
      have same : s'.writer = s.writer ∧ s'.incarnations = s.incarnations := by
        obtain ⟨store', -, rfl⟩ := Option.map_eq_some_iff.mp lands
        exact ⟨rfl, rfl⟩
      refine ⟨kept, same.2, ?_⟩
      rintro _ ⟨⟩ writer state writes mine waits opened
      rw [same.1] at writes
      cases mine
      obtain ⟨state', opened', next⟩ := own writer writes rfl
      rw [opened, Option.some_inj] at opened'
      subst opened'
      exact ⟨next waits, at_ writer state writes rfl waits opened⟩
    · cases served
      refine ⟨h, rfl, ?_⟩
      rintro _ ⟨⟩
      trivial
  | checkpointing checkpoint =>
    simp only [World.serve, Option.map_eq_some_iff] at served
    obtain ⟨⟨store', out⟩, serves, same⟩ := served
    cases same
    obtain ⟨holds, evolves, out_fits⟩ := fits.1.serve h.holds serves
    obtain ⟨bases, captures⟩ := Store.serveCheckpoint_bases serves
    have moved : s.Evolves { s with store := store' } :=
      ⟨evolves, List.prefix_rfl, List.Subset.refl _⟩
    refine ⟨h.evolve moved holds rfl rfl rfl rfl (fun i x at_ => .inl at_) ?_, rfl, ?_⟩
    · intro writer writes g base present
      obtain old | ⟨capture, captured, same⟩ := bases g base present
      · exact (h.writer writer writes).bases g base old
      · exact same ▸ fits.2 writer capture writes captured
    · intro c same
      obtain ⟨checkpoint', left, rfl⟩ := Option.map_eq_some_iff.mp same
      have left := Sum.getLeft?_eq_some_iff.mp left
      refine ⟨out_fits checkpoint' left, fun writer capture writes captured => ?_⟩
      exact fits.2 writer capture writes (captures checkpoint' left ▸ captured)
  | opened state => cases served
  | appended append => cases served
  | refused => cases served

theorem retire (h : s.Inv F since) {owner : Option Nat} {retired : List Key}
    (pending : s.calls id = some (owner, .checkpointing (.retiring retired))) {key : Key}
    (mem : key ∈ retired) : ({ s with store := s.store.delete key } : World Entry).Inv F since := by
  have fits := (h.calls id _ _ pending).1 key mem
  obtain ⟨holds, evolves⟩ := fits.delete h.holds
  have moved : s.Evolves { s with store := s.store.delete key } :=
    ⟨evolves, List.prefix_rfl, List.Subset.refl _⟩
  refine h.evolve moved holds rfl rfl rfl rfl (fun i x at_ => .inl at_) ?_
  intro writer writes g base present
  refine (h.writer writer writes).bases g base ?_
  cases key with
  | segment seq => exact present
  | snap version => exact present
  | base generation => exact fits.elim

theorem stopWaiting (h : s.Inv F since) {writer : Writer Entry} (writes : s.writer = some writer) :
    (s.setWriter { writer with waiting := none }).Inv F since := by
  have fits := h.writer writer writes
  refine h.setWriter s.acked (List.Subset.refl _) h.acked (fun id _ => ⟨writer, writes, ?_⟩) ?_
  · exact ⟨rfl, rfl, le_refl _, fun opened => opened, nofun⟩
  · exact ⟨fits.latest, fits.since_le, fits.bases, fun unopened => ⟨rfl, (fits.unopened unopened).2⟩,
      fits.opened⟩

theorem resume_opened (h : s.Inv F since) {writer : Writer Entry}
    (writes : s.writer = some writer) {state : State Entry}
    (pending : s.calls id = some (some writer.incarnation, .opened state))
    (unopened : writer.state = none) :
    (s.setWriter { writer with state := some state }).Inv F since := by
  have fits := h.writer writer writes
  obtain ⟨state_fits, read, began⟩ := h.calls id _ _ pending
  have reach : writer.limit ≤ state.nextSeq := by
    simp only [Writer.limit, unopened, Option.elim_none]
    exact (began writer writes rfl).trans read
  refine h.setWriter s.acked (List.Subset.refl _) h.acked (fun id _ => ⟨writer, writes, ?_⟩) ?_
  · refine ⟨rfl, rfl, reach, fun _ => rfl, fun waits => ?_⟩
    simp [(fits.unopened unopened).1] at waits
  · refine ⟨fits.latest, fits.since_le, fun g base present => (fits.bases g base present).trans reach,
      nofun, ?_⟩
    rintro _ ⟨⟩
    refine ⟨state_fits, fun i lt => .inr ?_⟩
    have le := state_fits.le_length
    rw [s.length_segments] at le
    refine ⟨s.line[i], List.getElem?_eq_getElem (lt.trans_le le), ?_⟩
    exact (fits.unopened unopened).2 _ (List.getElem_mem _)

theorem resume_appended (h : s.Inv F since) {writer : Writer Entry}
    (writes : s.writer = some writer) {append : Append Entry}
    (pending : s.calls id = some (some writer.incarnation, .appended append))
    (waits : writer.waiting = some id) {state state' : State Entry}
    (opened : writer.state = some state) (taken : state.appended append = .ok state') :
    ({ s with acked := s.acked ++ [append.seq] }.setWriter
      { writer with state := some state', waiting := none }).Inv F since := by
  have fits := h.writer writer writes
  obtain ⟨state_fits, settled⟩ := fits.opened state opened
  obtain ⟨at_, landed⟩ := h.calls id _ _ pending writer state writes rfl waits opened
  obtain ⟨nextSeq, advanced, taken⟩ := Checked.bind_eq_ok.mp taken
  cases taken
  obtain ⟨rfl, -⟩ := CommitVersion.advance_eq_ok.mp advanced
  have lt : append.seq < s.line.length := (List.getElem?_eq_some_iff.mp landed).1
  have reach : writer.limit ≤ append.seq + 1 := by
    simp only [Writer.limit, opened, Option.elim_some, at_]
    exact Nat.le_succ _
  refine h.setWriter (s.acked ++ [append.seq]) (List.subset_append_left _ _) ?_
    (fun id _ => ⟨writer, writes, rfl, rfl, reach, fun _ => rfl, nofun⟩) ?_
  · intro i mem
    rcases List.mem_append.mp mem with old | new
    · exact h.acked i old
    · rwa [List.mem_singleton.mp new]
  · refine ⟨fits.latest, fits.since_le, fun g base present => (fits.bases g base present).trans reach,
      nofun, ?_⟩
    rintro _ ⟨⟩
    refine ⟨⟨state_fits.names, ?_, ?_, ?_⟩, ?_⟩
    · exact state_fits.base_le.trans (at_ ▸ Nat.le_succ _)
    · exact s.length_segments ▸ lt
    · have segment : s.segments[append.seq]? = some append.entries := by
        simp [World.segments, landed]
      change state.entries ++ append.entries = (s.segments.take (append.seq + 1)).flatten
      rw [List.take_add_one, segment, List.flatten_append, state_fits.entries, at_]
      simp
    · intro i less
      obtain rfl | earlier := Nat.lt_succ_iff_lt_or_eq.mp less |>.symm
      · exact .inl (List.mem_append_right _ (List.mem_singleton_self _))
      · exact (settled i (at_ ▸ earlier)).imp_left fun mem => List.mem_append_left _ mem

theorem resume_checkpointing (h : s.Inv F since) {writer : Writer Entry}
    (writes : s.writer = some writer) {checkpoint checkpoint' : Checkpoint}
    (pending : s.calls id = some (some writer.incarnation, .checkpointing checkpoint))
    {state state' : State Entry} (opened : writer.state = some state)
    (resumed : state.resume checkpoint = some (state', checkpoint')) :
    ((s.setWriter { writer with state := some state' }).setCall id
      (some (some writer.incarnation, .checkpointing checkpoint'))).Inv F since := by
  have fits := h.writer writer writes
  obtain ⟨state_fits, settled⟩ := fits.opened state opened
  obtain ⟨checkpoint_fits, within⟩ := h.calls id _ _ pending
  have limit : writer.limit = state.nextSeq := by simp [Writer.limit, opened]
  obtain ⟨state_fits', checkpoint_fits', same_seq⟩ := state_fits.resume checkpoint_fits
    (fun capture based => limit ▸ within writer capture writes (by rw [based]; rfl)) resumed
  have limit' : ({ writer with state := some state' } : Writer Entry).limit = writer.limit := by
    simp [Writer.limit, opened, same_seq]
  have moved : (s.setWriter { writer with state := some state' }).Inv F since := by
    refine h.setWriter s.acked (List.Subset.refl _) h.acked (fun id _ => ⟨writer, writes, ?_⟩) ?_
    · exact ⟨rfl, rfl, limit'.ge, fun _ => rfl, fun waits => ⟨waits, by simp [opened, same_seq]⟩⟩
    · refine ⟨fits.latest, fits.since_le, ?_, nofun, ?_⟩
      · rw [limit']
        exact fits.bases
      · rintro _ ⟨⟩
        exact ⟨state_fits', fun i lt => settled i (same_seq ▸ lt)⟩
  have waits : ∀ owner c, some (some writer.incarnation, Call.checkpointing checkpoint') =
      some (owner, c) →
      c.Fits F (s.setWriter { writer with state := some state' }) (since id) id owner := by
    rintro _ _ ⟨⟩
    refine ⟨checkpoint_fits', ?_⟩
    rintro _ capture ⟨⟩ captured
    rw [limit']
    exact within writer capture writes (State.resume_capture resumed captured)
  have kept := moved.setCall id (since id) waits (by
    rintro _ _ ⟨⟩
    exact h.owners id _ _ pending)
  rwa [Function.update_eq_self] at kept

theorem resume (h : s.Inv F since) {writer : Writer Entry} (writes : s.writer = some writer)
    {call : Call Entry} (pending : s.calls id = some (some writer.incarnation, call))
    (resumed : s.resume writer id call = some s') : s'.Inv F since := by
  cases call with
  | opened state =>
    simp only [World.resume] at resumed
    split at resumed
    · cases resumed
    · rename_i unopened
      cases resumed
      exact (h.resume_opened writes pending (by simpa using unopened)).dropCall id
  | appended append =>
    simp only [World.resume] at resumed
    split at resumed
    · cases resumed
    · rename_i waits
      obtain ⟨state, opened, same⟩ := Option.map_eq_some_iff.mp resumed
      split at same
      · rename_i state' taken
        subst same
        exact (h.resume_appended writes pending (by simpa using waits) opened taken).dropCall id
      · subst same
        exact (h.stopWaiting writes).dropCall id
  | refused =>
    simp only [World.resume] at resumed
    split at resumed
    · cases resumed
    · cases resumed
      exact (h.stopWaiting writes).dropCall id
  | checkpointing checkpoint =>
    simp only [World.resume, Option.bind_eq_bind, Option.bind_eq_some_iff, Option.pure_def,
      Option.some_inj] at resumed
    obtain ⟨state, opened, ⟨state', checkpoint'⟩, resumes, rfl⟩ := resumed
    exact h.resume_checkpointing writes pending opened resumes
  | opening reading => cases resumed
  | appending append => cases resumed

theorem begun {call : Writer Entry → State Entry → Option (World Entry)}
    (began : s.begin id call = some s') : s.calls id = none ∧ ∃ writer state,
      s.writer = some writer ∧ writer.state = some state ∧ call writer state = some s' := by
  unfold World.begin at began
  split at began
  · cases began
  · rename_i free
    simp only [Option.bind_eq_bind, Option.bind_eq_some_iff] at began
    obtain ⟨writer, writes, state, opened, called⟩ := began
    exact ⟨by simpa using free, writer, state, writes, opened, called⟩

theorem append (h : s.Inv F since) {writer : Writer Entry} {state : State Entry}
    (free : s.calls id = none) (writes : s.writer = some writer)
    (opened : writer.state = some state) {entries : List Entry}
    {append : Append Entry} (begins : state.append F entries = .ok (some append)) :
    ((s.setWriter { writer with waiting := some id }).setCall id
      (some (some writer.incarnation, .appending append))).Inv F since := by
  have fits := h.writer writer writes
  obtain ⟨state_fits, settled⟩ := fits.opened state opened
  have within := state_fits.le_length
  rw [s.length_segments] at within
  have append_fits : append.Fits F s writer.incarnation ∧ append.seq = state.nextSeq := by
    unfold State.append at begins
    split at begins
    · cases begins
    · rename_i nonempty
      obtain ⟨_, valid, begins⟩ := Checked.bind_eq_ok.mp begins
      obtain ⟨payload, encoded, begins⟩ := Checked.bind_eq_ok.mp begins
      cases begins
      refine ⟨⟨within, by simpa using nonempty, F.decode_encode encoded, ?_, settled⟩, rfl⟩
      rw [← state_fits.entries]
      have rising : Rising F state.entries := by
        rw [state_fits.entries]
        exact h.holds.rising.sublist (List.take_sublist _ _).flatten
      exact rising.append valid
  have moved : (s.setWriter { writer with waiting := some id }).Inv F since := by
    refine h.setWriter s.acked (List.Subset.refl _) h.acked (fun id' taken => ⟨writer, writes, ?_⟩) ?_
    · refine ⟨rfl, rfl, le_refl _, fun opened => opened, fun waits => ?_⟩
      cases waits
      exact absurd free taken
    · exact ⟨fits.latest, fits.since_le, fits.bases, fun unopened => by simp [opened] at unopened,
        fits.opened⟩
  have waits : ∀ owner c, some (some writer.incarnation, Call.appending append) = some (owner, c) →
      c.Fits F (s.setWriter { writer with waiting := some id }) (since id) id owner := by
    rintro _ _ ⟨⟩
    refine ⟨writer.incarnation, rfl, ?_, ?_⟩
    · have evolves : s.Evolves (s.setWriter { writer with waiting := some id }) :=
        .of_eq rfl rfl rfl
      exact append_fits.1.evolve evolves
    · rintro _ ⟨⟩ -
      exact ⟨state, opened, fun _ => append_fits.2⟩
  have kept := moved.setCall id (since id) waits (by
    rintro _ _ ⟨⟩
    have latest := fits.latest
    change writer.incarnation < s.incarnations
    omega)
  rwa [Function.update_eq_self] at kept

theorem checkpoint (h : s.Inv F since) {writer : Writer Entry} {state : State Entry}
    (writes : s.writer = some writer) (opened : writer.state = some state) {capture : Capture}
    (begins : state.capture F = .ok (some capture)) :
    (s.setCall id (some (some writer.incarnation, .checkpointing (.snapping capture)))).Inv F
      since := by
  have fits := h.writer writer writes
  obtain ⟨capture_fits, at_⟩ := (fits.opened state opened).1.capture begins
  have waits : ∀ owner c, some (some writer.incarnation,
      (Call.checkpointing (.snapping capture) : Call Entry)) = some (owner, c) →
      c.Fits F s (since id) id owner := by
    rintro _ _ ⟨⟩
    refine ⟨capture_fits, ?_⟩
    rintro writer' _ writes' ⟨⟩
    rw [writes, Option.some_inj] at writes'
    subst writes'
    simp [Writer.limit, opened, at_]
  have kept := h.setCall id (since id) waits (by
    rintro _ _ ⟨⟩
    have latest := fits.latest
    omega)
  rwa [Function.update_eq_self] at kept

theorem read (h : s.Inv F since) (id : Nat) :
    (s.setCall id (some (none, .opening (.basing .first)))).Inv F
      (Function.update since id s.line.length) := by
  refine h.setCall id s.line.length ?_ nofun
  rintro _ _ ⟨⟩
  exact ⟨le_refl _, nofun, nofun⟩

/-- A writer starts: no base, and no capture on its way to be one, is past the line. -/
theorem boot (h : s.Inv F since) (id : Nat) :
    (({ s with incarnations := s.incarnations + 1 }.setWriter
      { incarnation := s.incarnations, since := s.line.length }).setCall id
        (some (some s.incarnations, .opening (.basing .first)))).Inv F
      (Function.update since id s.line.length) := by
  have reach : ({ incarnation := s.incarnations, since := s.line.length } : Writer Entry).limit =
    s.line.length := rfl
  have started : ({ s with incarnations := s.incarnations + 1 }.setWriter
      { incarnation := s.incarnations, since := s.line.length }).Inv F since := by
    refine ⟨h.holds, ?_, fun id o call pending => (h.owners id o call pending).trans
      (Nat.lt_succ_self _), fun x mem => (h.writers x mem).trans (Nat.lt_succ_self _), ?_, h.acked,
      h.order⟩
    · intro id owner call pending
      have fits := h.calls id owner call pending
      have stranger : owner ≠ some s.incarnations := by
        rintro rfl
        exact lt_irrefl _ (h.owners id _ _ pending)
      cases call with
      | opening reading =>
        refine ⟨fits.1, fits.2.1, ?_⟩
        rintro _ ⟨⟩ own
        exact absurd own stranger
      | opened state =>
        refine ⟨fits.1, fits.2.1, ?_⟩
        rintro _ ⟨⟩ own
        exact absurd own stranger
      | appending append =>
        obtain ⟨o, rfl, append_fits, -⟩ := fits
        have evolves : s.Evolves ({ s with incarnations := s.incarnations + 1 }.setWriter
          { incarnation := s.incarnations, since := s.line.length }) := .of_eq rfl rfl rfl
        refine ⟨o, rfl, append_fits.evolve evolves, ?_⟩
        rintro _ ⟨⟩ own
        exact absurd (congrArg some own) stranger
      | appended append =>
        rintro _ state ⟨⟩ own
        exact absurd own stranger
      | refused => trivial
      | checkpointing checkpoint =>
        refine ⟨fits.1, ?_⟩
        rintro _ capture ⟨⟩ captured
        have within : capture.Fits F s.store s.segments := by
          cases checkpoint with
          | snapping c =>
            cases captured
            exact fits.1
          | retiring retired => cases captured
          | _ =>
            cases captured
            exact fits.1.1
        rw [reach, ← s.length_segments]
        exact within.le_length
    · rintro _ ⟨⟩
      refine ⟨rfl, le_refl _, ?_, fun _ => ⟨rfl, h.writers⟩, nofun⟩
      intro g base present
      rw [reach, ← s.length_segments]
      exact (h.holds.base g base present).1
  refine started.setCall id s.line.length ?_ ?_
  · rintro _ _ ⟨⟩
    refine ⟨le_refl _, nofun, ?_⟩
    rintro _ ⟨⟩ -
    exact le_refl _
  · rintro _ _ ⟨⟩
    exact Nat.lt_succ_self _

/-- Every step keeps the invariant; an `open` that begins begins where the line is. -/
theorem step (h : s.Inv F since) {action : Action Entry} (stepped : s.step F action = some s') :
    ∃ since', s'.Inv F since' ∧ ∀ id, since' id = since id ∨ since' id = s.line.length := by
  have updated : ∀ id id', Function.update since id s.line.length id' = since id' ∨
      Function.update since id s.line.length id' = s.line.length := by
    intro id id'
    rw [Function.update_apply]
    split
    · exact .inr rfl
    · exact .inl rfl
  cases action with
  | read id =>
    simp only [World.step] at stepped
    split at stepped
    · cases stepped
    · cases stepped
      exact ⟨_, h.read id, updated id⟩
  | boot id =>
    simp only [World.step] at stepped
    split at stepped
    · cases stepped
    · cases stepped
      exact ⟨_, h.boot id, updated id⟩
  | append id entries =>
    obtain ⟨free, writer, state, writes, opened, begins⟩ := begun stepped
    split at begins
    · cases begins
    · split at begins
      · rename_i append appends
        cases begins
        exact ⟨since, h.append free writes opened appends, fun _ => .inl rfl⟩
      · cases begins
  | checkpoint id =>
    obtain ⟨free, writer, state, writes, opened, begins⟩ := begun stepped
    split at begins
    · rename_i capture captures
      cases begins
      exact ⟨since, h.checkpoint writes opened captures, fun _ => .inl rfl⟩
    · cases begins
  | serve id =>
    simp only [World.step, Option.bind_eq_bind, Option.bind_eq_some_iff, Option.pure_def,
      Option.some_inj] at stepped
    obtain ⟨⟨owner, call⟩, pending, ⟨served, next⟩, serves, rfl⟩ := stepped
    obtain ⟨kept, incarnations, fits⟩ := h.serve pending serves
    have waits : ∀ owner' c, (next.map fun call => (owner, call)) = some (owner', c) →
        c.Fits F served (since id) id owner' := by
      intro owner' c same
      obtain ⟨c', rfl, same⟩ := Option.map_eq_some_iff.mp same
      cases same
      exact fits _ rfl
    have called := kept.setCall id (since id) waits (by
      intro o c same
      obtain ⟨c', -, same⟩ := Option.map_eq_some_iff.mp same
      cases same
      rw [incarnations]
      exact h.owners id _ _ pending)
    rw [Function.update_eq_self] at called
    exact ⟨since, called, fun _ => .inl rfl⟩
  | unheard id =>
    simp only [World.step, Option.bind_eq_bind, Option.bind_eq_some_iff, Option.pure_def,
      Option.some_inj] at stepped
    obtain ⟨⟨owner, call⟩, pending, ⟨served, next⟩, serves, rfl⟩ := stepped
    exact ⟨since, (h.serve pending serves).1, fun _ => .inl rfl⟩
  | retire id key =>
    simp only [World.step] at stepped
    split at stepped
    · rename_i owner retired pending
      split at stepped
      · rename_i mem
        cases stepped
        exact ⟨since, h.retire pending mem, fun _ => .inl rfl⟩
      · cases stepped
    · cases stepped
  | resume id =>
    simp only [World.step, Option.bind_eq_bind, Option.bind_eq_some_iff] at stepped
    obtain ⟨⟨owner, call⟩, pending, writer, writes, resumed⟩ := stepped
    split at resumed
    · cases resumed
    · rename_i own
      rw [ne_eq, not_not] at own
      subst own
      exact ⟨since, h.resume writes pending resumed, fun _ => .inl rfl⟩
  | giveUp =>
    obtain ⟨writer, writes, rfl⟩ := Option.map_eq_some_iff.mp stepped
    exact ⟨since, h.stopWaiting writes, fun _ => .inl rfl⟩
  | abandon id =>
    cases stepped
    exact ⟨since, h.dropCall id, fun _ => .inl rfl⟩
  | crash =>
    cases stepped
    refine ⟨since, ⟨h.holds, ?_, h.owners, h.writers, nofun, h.acked, h.order⟩, fun _ => .inl rfl⟩
    intro id owner call pending
    have evolves : s.Evolves { s with writer := none } := .of_eq rfl rfl rfl
    exact (h.calls id owner call pending).move h.holds evolves nofun

theorem init : ({} : World Entry).Inv F fun _ => 0 where
  holds := ⟨List.Pairwise.nil, nofun, nofun, nofun, nofun, nofun,
    fun generation base names newest i le => by simp [World.segments], nofun⟩
  calls := nofun
  owners := nofun
  writers := nofun
  writer := nofun
  acked := nofun
  order := nofun

theorem absent (h : s.Inv F since) {n : Nat} (le : s.line.length ≤ n) :
    s.store.segments n = none := by
  obtain ⟨generation, base, names, newest⟩ := h.holds.exists_newest
  have within : base.seq ≤ n := by
    cases generation with
    | none =>
      cases names
      exact Nat.zero_le _
    | some g =>
      have := (h.holds.base g base names).1
      rw [s.length_segments] at this
      omega
  have same := h.holds.segments generation base names newest n within
  rw [List.getElem?_eq_none (by rwa [s.length_segments]), Option.map_none,
    Option.map_eq_none_iff] at same
  exact same

end World.Inv

namespace World

theorem serve_line {s s' : World Entry} {owner : Option Nat} {call : Call Entry}
    {next : Option (Call Entry)} (served : s.serve F owner call = some (s', next)) :
    s.line <+: s'.line ∧ s'.line.length ≤ s.line.length + 1 := by
  have still : s.line <+: s.line ∧ s.line.length ≤ s.line.length + 1 :=
    ⟨List.prefix_rfl, Nat.le_succ _⟩
  cases call with
  | opening reading =>
    simp only [World.serve] at served
    split at served <;> cases served <;> exact still
  | appending append =>
    simp only [World.serve, Option.bind_eq_some_iff] at served
    obtain ⟨o, -, served⟩ := served
    split at served
    · rename_i landed lands
      cases served
      obtain ⟨store', -, rfl⟩ := Option.map_eq_some_iff.mp lands
      dsimp only
      split
      · exact ⟨List.prefix_append _ _, by simp⟩
      · exact still
    · cases served
      exact still
  | checkpointing checkpoint =>
    simp only [World.serve, Option.map_eq_some_iff] at served
    obtain ⟨⟨store', out⟩, -, same⟩ := served
    cases same
    exact still
  | opened state => cases served
  | appended append => cases served
  | refused => cases served

theorem resume_line {s s' : World Entry} {writer : Writer Entry} {id : Nat} {call : Call Entry}
    (resumed : s.resume writer id call = some s') : s'.line = s.line := by
  cases call with
  | opened state =>
    simp only [World.resume] at resumed
    split at resumed <;> cases resumed
    rfl
  | appended append =>
    simp only [World.resume] at resumed
    split at resumed
    · cases resumed
    · obtain ⟨state, -, same⟩ := Option.map_eq_some_iff.mp resumed
      split at same <;> subst same <;> rfl
  | refused =>
    simp only [World.resume] at resumed
    split at resumed <;> cases resumed
    rfl
  | checkpointing checkpoint =>
    simp only [World.resume, Option.bind_eq_bind, Option.bind_eq_some_iff, Option.pure_def,
      Option.some_inj] at resumed
    obtain ⟨state, -, ⟨state', checkpoint'⟩, -, rfl⟩ := resumed
    rfl
  | opening reading => cases resumed
  | appending append => cases resumed

/-- The line only grows, by one segment at a time. -/
theorem step_line {s s' : World Entry} {action : Action Entry}
    (stepped : s.step F action = some s') :
    s.line <+: s'.line ∧ s'.line.length ≤ s.line.length + 1 := by
  have still : ∀ {t : World Entry}, t.line = s.line →
      s.line <+: t.line ∧ t.line.length ≤ s.line.length + 1 := by
    intro t same
    rw [same]
    exact ⟨List.prefix_rfl, Nat.le_succ _⟩
  cases action with
  | read id =>
    simp only [World.step] at stepped
    split at stepped <;> cases stepped
    exact still rfl
  | boot id =>
    simp only [World.step] at stepped
    split at stepped <;> cases stepped
    exact still rfl
  | append id entries =>
    obtain ⟨-, writer, state, -, -, begins⟩ := Inv.begun stepped
    split at begins
    · cases begins
    · split at begins <;> cases begins
      exact still rfl
  | checkpoint id =>
    obtain ⟨-, writer, state, -, -, begins⟩ := Inv.begun stepped
    split at begins <;> cases begins
    exact still rfl
  | serve id =>
    simp only [World.step, Option.bind_eq_bind, Option.bind_eq_some_iff, Option.pure_def,
      Option.some_inj] at stepped
    obtain ⟨⟨owner, call⟩, -, ⟨served, next⟩, serves, rfl⟩ := stepped
    have moved := serve_line serves
    exact moved
  | unheard id =>
    simp only [World.step, Option.bind_eq_bind, Option.bind_eq_some_iff, Option.pure_def,
      Option.some_inj] at stepped
    obtain ⟨⟨owner, call⟩, -, ⟨served, next⟩, serves, rfl⟩ := stepped
    exact serve_line serves
  | retire id key =>
    simp only [World.step] at stepped
    split at stepped
    · split at stepped <;> cases stepped
      exact still rfl
    · cases stepped
  | resume id =>
    simp only [World.step, Option.bind_eq_bind, Option.bind_eq_some_iff] at stepped
    obtain ⟨⟨owner, call⟩, -, writer, -, resumed⟩ := stepped
    split at resumed
    · cases resumed
    · exact still (resume_line resumed)
  | giveUp =>
    obtain ⟨writer, -, rfl⟩ := Option.map_eq_some_iff.mp stepped
    exact still rfl
  | abandon id =>
    cases stepped
    exact still rfl
  | crash =>
    cases stepped
    exact still rfl

theorem run_line {s t : World Entry} {actions : List (Action Entry)}
    (ran : Steps.run (World.step F) s actions = some t) : s.line <+: t.line :=
  Steps.run_invariant (fun u => s.line <+: u.line)
    (fun _ _ _ before stepped => before.trans (step_line stepped).1) List.prefix_rfl ran

theorem run_inv {t : World Entry} {actions : List (Action Entry)}
    (ran : Steps.run (World.step F) {} actions = some t) : ∃ since, t.Inv F since :=
  Steps.run_invariant (fun u => ∃ since, u.Inv F since)
    (fun _ _ _ ⟨_, before⟩ stepped => (before.step stepped).imp fun _ => And.left)
    ⟨_, Inv.init⟩ ran

/-- What an `open` returned is the line at a moment: every acknowledged segment and
those that landed unacknowledged, which are the last of their writers. -/
structure Reflects (F : SegmentFormat Entry) (t : World Entry) (state : State Entry) : Prop where
  entries : state.entries = t.segments.flatten
  nextSeq : state.nextSeq = t.line.length
  rising : Rising F state.entries
  acked : ∀ i ∈ t.acked, i < state.nextSeq
  unacked : ∀ i j x y, i < j → t.line[i]? = some x → t.line[j]? = some y →
    i ∈ t.acked ∨ x.1 < y.1

/-- An `open` that returns has read the log as it stood at some moment of the open's
life: the whole line, ending at a segment that no state so far has held. -/
theorem opened_reflects_moment {before during : List (Action Entry)} {s s₁ s₂ : World Entry}
    {id : Nat} {action : Action Entry} {owner : Option Nat} {state : State Entry}
    (ran : Steps.run (World.step F) {} before = some s)
    (opens : action = .read id ∨ action = .boot id) (began : s.step F action = some s₁)
    (ran_on : Steps.run (World.step F) s₁ during = some s₂)
    (returned : s₂.calls id = some (owner, .opened state)) :
    ∃ until_ after t, during = until_ ++ after ∧ Steps.run (World.step F) s₁ until_ = some t ∧
      t.Reflects F state ∧ ∀ past rest u, before ++ action :: until_ = past ++ rest →
        Steps.run (World.step F) {} past = some u →
        ∀ n, state.nextSeq ≤ n → u.store.segments n = none := by
  -- along the run, the open is never to return less than the line it began with
  have began_inv : ∃ since, s₁.Inv F since ∧ s.line.length ≤ since id := by
    obtain ⟨since, inv⟩ := run_inv ran
    rcases opens with rfl | rfl
    · simp only [World.step] at began
      split at began <;> cases began
      exact ⟨_, inv.read id, by simp⟩
    · simp only [World.step] at began
      split at began <;> cases began
      exact ⟨_, inv.boot id, by simp⟩
  have kept : ∃ since, s₂.Inv F since ∧ s.line.length ≤ since id := by
    refine (Steps.run_invariant (fun u => s.line <+: u.line ∧ ∃ since, u.Inv F since ∧
      s.line.length ≤ since id) ?_ ⟨(step_line began).1, began_inv⟩ ran_on).2
    rintro u action' v ⟨longer, since, inv, le⟩ stepped
    obtain ⟨since', inv', same⟩ := inv.step stepped
    refine ⟨longer.trans (step_line stepped).1, since', inv', ?_⟩
    obtain eq | eq := same id
    · rwa [eq]
    · rw [eq]
      exact longer.length_le
  obtain ⟨since, inv, le⟩ := kept
  obtain ⟨fits, read, -⟩ := inv.calls id owner _ returned
  have within := fits.le_length
  rw [s₂.length_segments] at within
  have start : s₁.line.length ≤ state.nextSeq := by
    have : s₁.line = s.line := by
      rcases opens with rfl | rfl <;> simp only [World.step] at began <;>
        split at began <;> cases began <;> rfl
    rw [this]
    omega
  -- the line passed the length the open returned
  obtain ⟨until_, after, t, rfl, ran_until, ran_after, length⟩ :=
    Steps.run_passes (fun u => u.line.length) (fun _ _ _ stepped => (step_line stepped).2)
      ran_on start within
  have ran_t : Steps.run (World.step F) {} (before ++ action :: until_) = some t := by
    rw [Steps.run_append, ran, Option.bind_some]
    exact Steps.run_cons.mpr ⟨s₁, began, ran_until⟩
  obtain ⟨since_t, inv_t⟩ := run_inv ran_t
  have line_t : t.segments = s₂.segments.take state.nextSeq := by
    obtain ⟨more, eq⟩ := run_line ran_after
    rw [segments, segments, ← eq, List.map_append, List.take_left']
    simp [length]
  have entries : state.entries = t.segments.flatten := by rw [fits.entries, line_t]
  refine ⟨until_, after, t, rfl, ran_until, ⟨entries, length.symm, ?_, ?_, inv_t.order⟩, ?_⟩
  · rw [entries]
    exact inv_t.holds.rising
  · intro i mem
    rw [← length]
    exact inv_t.acked i mem
  · intro past rest u split ran_past n le_n
    obtain ⟨since_u, inv_u⟩ := run_inv ran_past
    refine inv_u.absent ?_
    rw [split, Steps.run_append, ran_past, Option.bind_some] at ran_t
    have := (run_line ran_t).length_le
    omega

end World

/-- Entries that are their own bytes and versions. -/
def plain : SegmentFormat UInt8 where
  encode := .ok
  decode := .ok
  version := UInt8.toNat
  decode_encode same := same.symm

/-- A writer's first append lands and the writer dies before its answer; the next
writer's append is acknowledged. -/
def lostAnswer : List (Action UInt8) :=
  [.boot 0, .serve 0, .serve 0, .serve 0, .resume 0, .append 1 [0], .serve 1, .crash,
    .boot 2, .serve 2, .serve 2, .serve 2, .serve 2, .resume 2, .append 3 [1], .serve 3, .resume 3]

namespace World

theorem opened_reflects_moment_lostAnswer : ∃ s s₁ s₂ state,
    Steps.run (World.step plain) {} lostAnswer = some s ∧
    s.step plain (.read 4) = some s₁ ∧
    Steps.run (World.step plain) s₁ (List.replicate 5 (.serve 4)) = some s₂ ∧
    s₂.calls 4 = some (none, .opened state) ∧
    ∃ until_ after t, List.replicate 5 (.serve 4) = until_ ++ after ∧
      Steps.run (World.step plain) s₁ until_ = some t ∧ t.Reflects plain state ∧
      ∀ past rest u, lostAnswer ++ .read 4 :: until_ = past ++ rest →
        Steps.run (World.step plain) {} past = some u →
        ∀ n, state.nextSeq ≤ n → u.store.segments n = none := by
  refine ⟨_, _, _, _, rfl, rfl, rfl, rfl, ?_⟩
  exact @opened_reflects_moment UInt8 plain lostAnswer (List.replicate 5 (.serve 4)) _ _ _ 4
    (.read 4) none _ rfl (.inl rfl) rfl rfl rfl

/-- At no moment of the open that follows are the acknowledged entries the first it returns. -/
theorem unacknowledged_ahead : ∃ s₁ s₂ state,
    Steps.run (World.step plain) {} (lostAnswer ++ [.read 4]) = some s₁ ∧
    Steps.run (World.step plain) s₁ (List.replicate 5 (.serve 4)) = some s₂ ∧
    s₂.calls 4 = some (none, .opened state) ∧ state.entries = [0, 1] ∧
    ∀ k ≤ 5, (Steps.run (World.step plain) s₁ (List.replicate k (.serve 4))).all fun t =>
      t.acknowledged = [1] ∧ ¬ t.acknowledged <+: state.entries := by
  refine ⟨_, _, _, rfl, rfl, rfl, rfl, ?_⟩
  decide +kernel

end World

end Oqueue.Log
