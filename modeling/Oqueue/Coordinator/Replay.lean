import Oqueue.Coordinator.Agreement
import Oqueue.Coordinator.Standby

/-!
# The live line is the replayed line

A turn of the live loop is a request of the shard model, with whatever admission
let through as its spans. So the log it leaves is one both folds accept, and
the line a failover rebuilds from it is the line that was serving.
-/

namespace Oqueue

open Checked

def LoopRequest.Counted : LoopRequest → Prop
  | .commit _ spans _ => ∀ span ∈ spans, span.recordCount ≠ 0
  | _ => True

namespace Allocator

/-- Admission passes spans on; it makes none up. -/
theorem mem_admitSpans (a : Allocator) (spans : List CommittedSpan) {item : Nat × CommittedSpan}
    (h : item ∈ (a.admitSpans spans).admitted) : item.2 ∈ spans := by
  have grows : ∀ (l : List (CommittedSpan × Nat)) (held : Admission × RunningLines),
      (∀ x ∈ l, x.1 ∈ spans) → (∀ x ∈ held.1.admitted, x.2 ∈ spans) →
      ∀ x ∈ (l.foldl a.admitSpan held).1.admitted, x.2 ∈ spans := by
    intro l
    induction l with
    | nil => exact fun held _ hheld => hheld
    | cons item rest ih =>
      intro held hl hheld
      refine ih _ (fun x hx => hl x (List.mem_cons_of_mem _ hx)) ?_
      have here := hl item (List.mem_cons_self ..)
      have more : ∀ x ∈ held.1.admitted ++ [(item.2, item.1)], x.2 ∈ spans := by
        intro x hx
        rcases List.mem_append.mp hx with hx | hx
        · exact hheld x hx
        · rw [List.mem_singleton] at hx
          subst hx
          exact here
      unfold admitSpan
      split
      · exact more
      · dsimp only
        unfold recordDecision
        split
        · exact more
        · exact hheld
        · exact hheld
  exact grows _ _ (fun x hx => (List.mem_zipIdx' hx).2 ▸ List.getElem_mem _) (by simp) item h

end Allocator

namespace CoordinatorLoop

/-- The loop's allocator and log are those of a shard whose index agrees. -/
def Shadowed (loop : CoordinatorLoop) : Prop :=
  ∃ shard : Shard, shard.Inv ∧ shard.allocator = loop.allocator ∧ shard.log = loop.log

theorem Shadowed.taken {loop : CoordinatorLoop} {shard : Shard}
    (hallocator : shard.allocator = loop.allocator) (hlog : shard.log = loop.log)
    {staged : Allocator.Staged} {acks : List Ack}
    (h : ∃ shard', shard.take staged acks = .ok shard' ∧ shard'.Inv) :
    (loop.taken staged).Shadowed := by
  obtain ⟨shard', htake, inv⟩ := h
  obtain ⟨index, -, hpure⟩ := bind_eq_ok.mp htake
  cases hpure
  refine ⟨_, inv, ?_, ?_⟩
  · unfold CoordinatorLoop.taken
    rw [hallocator]
  · unfold CoordinatorLoop.taken
    rw [hlog]

theorem Shadowed.turn {loop : CoordinatorLoop} (shadowed : loop.Shadowed)
    {request : LoopRequest × Except Error Unit} (counted : request.1.Counted) :
    (loop.turn request).Shadowed := by
  obtain ⟨shard, inv, hallocator, hlog⟩ := shadowed
  obtain ⟨h, -⟩ | ⟨object, spans, writtenAt, staged, hrequest, hstaged, h, -⟩ |
    ⟨record, staged, kind, hstaged, h, -⟩ := loop.turn_cases request
  · rw [h]
    exact ⟨shard, inv, hallocator, hlog⟩
  · rw [hrequest] at counted
    rw [← hallocator] at hstaged
    rw [h]
    refine Shadowed.taken hallocator hlog (inv.commit ?_ hstaged)
    intro span hspan
    obtain ⟨item, hitem, rfl⟩ := List.mem_map.mp hspan
    exact counted item.2 (Allocator.mem_admitSpans _ _ hitem)
  · rw [← hallocator] at hstaged kind
    rw [h]
    cases record with
    | trimmed topic partition start =>
      have inside : start ≤ shard.index.endOffset (topic, partition) := by
        rw [← inv.ends]
        exact kind
      exact Shadowed.taken hallocator hlog
        (inv.record rfl hstaged (IndexState.apply_trim inv.unbounded inv.above inside))
    | topicRetentionChanged topic retentionMs =>
      exact Shadowed.taken hallocator hlog
        (inv.record rfl hstaged (IndexState.apply_neutral inv.unbounded inv.above rfl rfl))
    | _ => exact absurd kind (by simp [Stageable])

theorem Shadowed.run {requests : List (LoopRequest × Except Error Unit)}
    (counted : ∀ r ∈ requests, r.1.Counted) : (CoordinatorLoop.run requests).Shadowed := by
  have whole : ∀ loop : CoordinatorLoop, loop.Shadowed →
      (requests.foldl CoordinatorLoop.turn loop).Shadowed := by
    induction requests with
    | nil => exact fun loop shadowed => shadowed
    | cons request rest ih =>
      intro loop shadowed
      exact ih (fun r hr => counted r (List.mem_cons_of_mem _ hr)) _
        (shadowed.turn (counted request (List.mem_cons_self ..)))
  exact whole {} ⟨{}, Shard.Inv.initial, rfl, rfl⟩

/-- Replaying what was journaled gives the live allocator, and a standby that
caught up over any views of that log and was promoted has the line a cold replay
of it gives: when every span has records, they both have one, with that allocator. -/
theorem live_eq_replay (requests : List (LoopRequest × Except Error Unit))
    (views : List (Nat × Pager)) (whole cold : Pager) :
    (run requests).log.foldlM Allocator.replay {} = .ok (run requests).allocator ∧
    (Standby.lead (views.map fun v => ⟨(run requests).log.take v.1, v.2⟩)
        ⟨(run requests).log, whole⟩).toOption =
      (coldReplay ⟨(run requests).log, cold⟩ .new).toOption ∧
    ((∀ r ∈ requests, r.1.Counted) → ∃ line, coldReplay ⟨(run requests).log, cold⟩ .new = .ok line ∧
      line.allocator = (run requests).allocator) := by
  have live := Live.run requests
  have ordered : Ordered 0 (run requests).log := ordered_of_replay live.replays
  refine ⟨live.replays, ?_, ?_⟩
  · refine (lead_agrees_cold ordered ?_ rfl rfl).toOption_eq
    intro view hview
    obtain ⟨v, -, rfl⟩ := List.mem_map.mp hview
    exact List.take_prefix _ _
  · intro counted
    obtain ⟨shard, inv, -, hlog⟩ := Shadowed.run counted
    have accepted : Accepts (run requests).log (run requests).log.length :=
      ⟨_, _, by rw [List.take_length]; exact live.replays,
        by rw [List.take_length, ← hlog]; exact inv.fold⟩
    have start := Standby.Folded.initial (run requests).log
    have isPrefix : (LogView.mk (run requests).log cold).entries <+: (run requests).log :=
      List.prefix_refl _
    obtain ⟨forward, backward⟩ := start.catchUp ordered isPrefix
    rw [Nat.zero_max] at forward backward
    obtain ⟨out, hout⟩ := backward accepted
    have ended := (forward out.1 out.2 hout).allocator
    rw [List.take_length] at ended
    have cold : coldReplay ⟨(run requests).log, cold⟩ .new = .ok out.1 := by
      have same : coldReplay ⟨(run requests).log, cold⟩ .new = _ :=
        start.foldPagesRounds ordered isPrefix rfl 0
      have caught : Standby.catchUpRounds _ _ _ 0 = _ := hout
      rw [same, caught]
      rfl
    exact ⟨out.1, cold, Except.ok.inj (ended.symm.trans live.replays)⟩

/-- A commit, its retry, and a trim, paged one entry at a time. -/
def committedTwice : List (LoopRequest × Except Error Unit) :=
  [(.commit ⟨"a"⟩ [⟨⟨"t"⟩, 0, 2, .full, some ⟨7, 0, 0⟩⟩] 5, .ok ()),
    (.commit ⟨"b"⟩ [⟨⟨"t"⟩, 0, 2, .full, some ⟨7, 0, 0⟩⟩] 6, .ok ()),
    (.trim ⟨"t"⟩ 0 1, .ok ())]

theorem live_eq_replay_committedTwice :
    (run committedTwice).log.length = 2 ∧
      ∃ line, coldReplay ⟨(run committedTwice).log, ⟨fun _ => 1, by simp⟩⟩ .new = .ok line ∧
        line.allocator = (run committedTwice).allocator := by
  refine ⟨by decide, ?_⟩
  have replays := live_eq_replay committedTwice [(1, rebuildPageEntries)] rebuildPageEntries
    ⟨fun _ => 1, by simp⟩
  exact replays.2.2 (by simp [committedTwice, LoopRequest.Counted])

end CoordinatorLoop

end Oqueue
