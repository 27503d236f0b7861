import Oqueue.Core.BundleReads

/-!
# Assembling a bundle without holding it

A stream hands its object to a multipart writer part by part and keeps the regions
for the footer. A plain push is placed where the stream has got to; a sealed one
where the builder's own payload has, which holds the sealed bytes alone. So a stream
writes what a builder seals exactly when no plain push comes before a sealed one.
-/

namespace Oqueue

open Checked Footer Tiling

def bundlePartBytes : Nat := 8388608

/-- What a store answers a multipart write with, by the parts it has been handed. -/
structure MultipartWriter where
  opened : Except Error Unit
  writePart : List (List UInt8) → List UInt8 → Except Error Unit
  finish : List (List UInt8) → Except Error Unit

/-- What writing an object took: record bytes, and parts with the footer's. -/
structure Written where
  bytes : Nat
  parts : Nat
  deriving DecidableEq, Repr

/-- A bundled object being written. The parts handed over stand for their count and
for what the writer holds. -/
structure BundleStream where
  regions : BundleBuilder := {}
  buffer : List UInt8 := []
  written : Nat := 0
  parts : List (List UInt8) := []
  deriving DecidableEq, Repr

namespace BundleStream

def start (writer : MultipartWriter) : Except Error BundleStream := do
  let () ← writer.opened
  return {}

/-- Hands over full parts while there are any; every round takes a part's bytes, so as
many rounds as bytes are enough. -/
def flush (writer : MultipartWriter) : Nat → BundleStream → Except Error BundleStream
  | 0, self => .ok self
  | rounds + 1, self =>
    if self.buffer.length < bundlePartBytes then .ok self
    else do
      let part := self.buffer.take bundlePartBytes
      let () ← writer.writePart self.parts part
      flush writer rounds { self with
        buffer := self.buffer.drop bundlePartBytes
        parts := self.parts ++ [part] }

/-- Buffers pushed bytes and hands over the parts they fill. -/
def extend (writer : MultipartWriter) (self : BundleStream) (regions : BundleBuilder)
    (bytes : List UInt8) : Except Error BundleStream :=
  flush writer (self.buffer ++ bytes).length { self with
    regions := regions
    buffer := self.buffer ++ bytes
    written := min (self.written + bytes.length) u64Max }

def push (writer : MultipartWriter) (self : BundleStream) (topic : TopicId) (partition : Nat)
    (pushed : PushedRecords) (records : List UInt8) : Except Error BundleStream := do
  let regions ← self.regions.pushStreamed topic partition pushed self.written records.length
  self.extend writer regions records

def pushSealed (writer : MultipartWriter) (self : BundleStream) (topic : TopicId) (partition : Nat)
    (pushed : PushedRecords) (region : SealedRegion) : Except Error BundleStream := do
  let regions ← self.regions.pushSealed topic partition pushed region
  self.extend writer regions region.bytes

/-- Writes what is left and the footer as the last part. -/
def finish (writer : MultipartWriter) (self : BundleStream) :
    Except Error (List CommittedSpan × Written × List UInt8) := do
  let (footer, spans) ← self.regions.intoFooter
  let () ← writer.writePart self.parts (self.buffer ++ footer)
  let parts := self.parts ++ [self.buffer ++ footer]
  let () ← writer.finish parts
  return (spans, ⟨self.written, parts.length⟩, parts.flatten)

def call (writer : MultipartWriter) (self : BundleStream) : Push → Except Error BundleStream
  | .plain topic partition pushed records => self.push writer topic partition pushed records
  | .ciphered topic partition pushed region => self.pushSealed writer topic partition pushed region

/-- The spans, the cost and the object of a run of pushes. -/
def object (writer : MultipartWriter) (pushes : List Push) :
    Except Error (List CommittedSpan × Written × List UInt8) := do
  let stream ← start writer
  let stream ← pushes.foldlM (call writer) stream
  stream.finish writer

end BundleStream

/-- The regions a stream records: a plain push where the stream has got to, a sealed
one where the sealed bytes have. -/
def streamed : List Push → Nat → Nat → List Region
  | [], _, _ => []
  | .plain topic partition pushed records :: rest, written, held =>
    (Push.plain topic partition pushed records).region written ::
      streamed rest (written + records.length) held
  | .ciphered topic partition pushed region :: rest, written, held =>
    (Push.ciphered topic partition pushed region).region held ::
      streamed rest (written + region.bytes.length) (held + region.bytes.length)

structure MultipartWriter.Accepting (writer : MultipartWriter) : Prop where
  opened : writer.opened = .ok ()
  writePart : ∀ parts part, writer.writePart parts part = .ok ()
  finish : ∀ parts, writer.finish parts = .ok ()

namespace BundleStream

variable {writer : MultipartWriter}

theorem flush_ok (accepting : writer.Accepting) (rounds : Nat) (self : BundleStream) :
    ∃ parts buffer, flush writer rounds self = .ok { self with parts := parts, buffer := buffer } ∧
      parts.flatten ++ buffer = self.parts.flatten ++ self.buffer := by
  induction rounds generalizing self with
  | zero => exact ⟨self.parts, self.buffer, rfl, rfl⟩
  | succ rounds ih =>
    unfold flush
    by_cases short : self.buffer.length < bundlePartBytes
    · rw [if_pos short]
      exact ⟨self.parts, self.buffer, rfl, rfl⟩
    · rw [if_neg short]
      dsimp only
      rw [accepting.writePart, bind_ok]
      obtain ⟨parts, buffer, flushed, same⟩ := ih { self with
        buffer := self.buffer.drop bundlePartBytes
        parts := self.parts ++ [self.buffer.take bundlePartBytes] }
      refine ⟨parts, buffer, flushed, same.trans ?_⟩
      simp

theorem extend_ok (accepting : writer.Accepting) (self : BundleStream) (regions : BundleBuilder)
    (bytes : List UInt8) : ∃ parts buffer, self.extend writer regions bytes = .ok {
      regions := regions
      buffer := buffer
      written := min (self.written + bytes.length) u64Max
      parts := parts } ∧ parts.flatten ++ buffer = self.parts.flatten ++ self.buffer ++ bytes := by
  obtain ⟨parts, buffer, flushed, same⟩ := flush_ok accepting (self.buffer ++ bytes).length
    { self with
      regions := regions
      buffer := self.buffer ++ bytes
      written := min (self.written + bytes.length) u64Max }
  exact ⟨parts, buffer, flushed, same.trans (List.append_assoc ..).symm⟩

theorem pushStreamed_ok {builder : BundleBuilder} {topic : TopicId} {partition : Nat}
    {pushed : PushedRecords} {records : List UInt8}
    (taken : (Push.plain topic partition pushed records).Taken) (offset : Nat) :
    builder.pushStreamed topic partition pushed offset records.length = .ok { builder with
      regions := builder.regions ++ [(Push.plain topic partition pushed records).region offset]
      producers := builder.producers ++ [pushed.producer] } := by
  have admitted := admissible_eq_ok.mpr ⟨taken.topic, taken.count⟩
  have ranged : ByteRange.new offset records.length = .ok (.bounded offset records.length) :=
    ByteRange.new_eq_ok.mpr ⟨rfl, taken.bytes⟩
  unfold BundleBuilder.pushStreamed
  change (admissible topic pushed.count >>= _) = _
  rw [show admissible topic pushed.count = .ok () from admitted, bind_ok, ranged]
  rfl

/-- What a push leaves in the builder a stream keeps: a plain one's bytes stay out of
its payload, a sealed one's go in. -/
def recorded (builder : BundleBuilder) (written : Nat) : Push → BundleBuilder
  | .plain topic partition pushed records => { builder with
    regions := builder.regions ++ [(Push.plain topic partition pushed records).region written]
    producers := builder.producers ++ [pushed.producer] }
  | .ciphered topic partition pushed region => {
    payload := builder.payload ++ region.bytes
    regions := builder.regions ++
      [(Push.ciphered topic partition pushed region).region builder.payload.length]
    producers := builder.producers ++ [pushed.producer] }

theorem call_ok (accepting : writer.Accepting) {push : Push} (taken : push.Taken)
    (self : BundleStream) : ∃ parts buffer, self.call writer push = .ok {
      regions := recorded self.regions self.written push
      buffer := buffer
      written := min (self.written + push.bytes.length) u64Max
      parts := parts } ∧
    parts.flatten ++ buffer = self.parts.flatten ++ self.buffer ++ push.bytes := by
  cases push with
  | plain topic partition pushed records =>
    obtain ⟨parts, buffer, extended, same⟩ := extend_ok accepting self
      (recorded self.regions self.written (.plain topic partition pushed records)) records
    refine ⟨parts, buffer, ?_, same⟩
    unfold call push
    dsimp only
    rw [pushStreamed_ok taken, bind_ok]
    exact extended
  | ciphered topic partition pushed region =>
    obtain ⟨parts, buffer, extended, same⟩ := extend_ok accepting self
      (recorded self.regions self.written (.ciphered topic partition pushed region)) region.bytes
    refine ⟨parts, buffer, ?_, same⟩
    have called : self.regions.pushSealed topic partition pushed region = .ok
        (recorded self.regions self.written (.ciphered topic partition pushed region)) :=
      BundleBuilder.call_eq_ok.mpr ⟨taken, rfl⟩
    unfold call pushSealed
    dsimp only
    rw [called, bind_ok]
    exact extended

/-- A run of pushes hands over their bytes in order, and records a region for each. -/
theorem calls_ok (accepting : writer.Accepting) {pushes : List Push}
    (taken : ∀ push ∈ pushes, push.Taken) (self : BundleStream)
    (small : self.written + (laid pushes).length ≤ u64Max) :
    ∃ stream, pushes.foldlM (call writer) self = .ok stream ∧
      stream.regions.regions =
        self.regions.regions ++ streamed pushes self.written self.regions.payload.length ∧
      stream.regions.producers =
        self.regions.producers ++ pushes.map (fun push => push.pushed.producer) ∧
      stream.written = self.written + (laid pushes).length ∧
      stream.parts.flatten ++ stream.buffer = self.parts.flatten ++ self.buffer ++ laid pushes := by
  induction pushes generalizing self with
  | nil => exact ⟨self, rfl, by simp [streamed], by simp, rfl, by simp [laid]⟩
  | cons push rest ih =>
    have length : (laid (push :: rest)).length = push.bytes.length + (laid rest).length := by
      simp [laid]
    have unsaturated : min (self.written + push.bytes.length) u64Max =
        self.written + push.bytes.length := Nat.min_eq_left (by omega)
    obtain ⟨parts, buffer, called, same⟩ :=
      call_ok accepting (taken push (List.mem_cons_self ..)) self
    rw [unsaturated] at called
    obtain ⟨stream, ran, regions, producers, written, bytes⟩ := ih
      (fun p h => taken p (List.mem_cons_of_mem _ h)) ⟨recorded self.regions self.written push,
        buffer, self.written + push.bytes.length, parts⟩ (by dsimp only; omega)
    refine ⟨stream, ?_, ?_, ?_, ?_, ?_⟩
    · rw [List.foldlM_cons, called, bind_ok]
      exact ran
    · rw [regions]
      cases push <;> simp [recorded, streamed, Push.bytes]
    · rw [producers]
      cases push <;> simp [recorded, Push.pushed]
    · rw [written]
      dsimp only
      omega
    · rw [bytes]
      dsimp only
      rw [same]
      simp [laid]

end BundleStream

/-- Every sealed push of a run comes before every plain one. -/
def CipheredFirst (pushes : List Push) : Prop :=
  pushes.Pairwise fun earlier later => later.envelope ≠ none → earlier.envelope ≠ none

instance (pushes : List Push) : Decidable (CipheredFirst pushes) :=
  inferInstanceAs (Decidable (pushes.Pairwise _))

/-- The two place the same regions when the sealed bytes are all the stream has got to,
or nothing sealed is to come. -/
theorem streamed_bytes_iff {pushes : List Push} (taken : ∀ push ∈ pushes, push.Taken)
    {written held : Nat} (behind : held ≤ written) :
    (streamed pushes written held).map Region.bytes = (placed pushes written).map Region.bytes ↔
      (held = written ∨ ∀ push ∈ pushes, push.envelope = none) ∧ CipheredFirst pushes := by
  induction pushes generalizing written held with
  | nil => simp [streamed, placed, CipheredFirst]
  | cons push rest ih =>
    have nonzero := (taken push (List.mem_cons_self ..)).bytes
    have later := fun p h => taken p (List.mem_cons_of_mem push h)
    unfold CipheredFirst at ih ⊢
    rw [List.pairwise_cons, List.forall_mem_cons]
    cases push with
    | plain topic partition pushed records =>
      have apart : held ≠ written + records.length := by
        change records.length ≠ 0 at nonzero
        omega
      rw [streamed, placed, List.map_cons, List.map_cons, List.cons.injEq]
      refine (and_iff_right rfl).trans ((ih later (by omega)).trans ?_)
      constructor
      · rintro ⟨plain | plain, first⟩
        · exact absurd plain apart
        · exact ⟨.inr ⟨rfl, plain⟩, fun p hp sealed_ => absurd (plain p hp) sealed_, first⟩
      · rintro ⟨-, plain, first⟩
        refine ⟨.inr fun p hp => ?_, first⟩
        by_contra sealed_
        exact plain p hp sealed_ rfl
    | ciphered topic partition pushed region =>
      rw [streamed, placed, List.map_cons, List.map_cons, List.cons.injEq]
      have place : ((Push.ciphered topic partition pushed region).region held).bytes =
          ((Push.ciphered topic partition pushed region).region written).bytes ↔ held = written := by
        simp [Push.region]
      rw [place]
      constructor
      · rintro ⟨rfl, same⟩
        exact ⟨.inl rfl, fun p hp _ => Option.some_ne_none _, ((ih later (Nat.le_refl _)).mp same).2⟩
      · rintro ⟨rfl | plain, -, first⟩
        · exact ⟨rfl, (ih later (Nat.le_refl _)).mpr ⟨.inl rfl, first⟩⟩
        · exact absurd plain.1 (Option.some_ne_none _)

/-- A region's range is all that its place decides. -/
theorem streamed_of_bytes {pushes : List Push} {written held : Nat}
    (same : (streamed pushes written held).map Region.bytes =
      (placed pushes written).map Region.bytes) :
    streamed pushes written held = placed pushes written := by
  have place : ∀ (push : Push) (a b : Nat), (push.region a).bytes = (push.region b).bytes →
      push.region a = push.region b := by
    intro push a b same
    obtain ⟨rfl, -⟩ := ByteRange.bounded.inj same
    rfl
  induction pushes generalizing written held with
  | nil => rfl
  | cons push rest ih =>
    cases push with
    | plain topic partition pushed records =>
      rw [streamed, placed, List.map_cons, List.map_cons, List.cons.injEq] at same
      rw [streamed, placed, ih same.2]
      rfl
    | ciphered topic partition pushed region =>
      rw [streamed, placed, List.map_cons, List.map_cons, List.cons.injEq] at same
      rw [streamed, placed, ih same.2, place _ _ _ same.1]
      rfl

theorem committedSpans_bytes {regions : List Region} {producers : List (Option ProducerIdentity)}
    (length : regions.length = producers.length) :
    (committedSpans regions producers).map CommittedSpan.bytes = regions.map Region.bytes := by
  unfold committedSpans
  rw [List.map_zipWith]
  induction regions generalizing producers with
  | nil => rfl
  | cons region rest ih =>
    cases producers with
    | nil => cases length
    | cons producer producers =>
      rw [List.zipWith_cons_cons, List.map_cons, ih (Nat.succ.inj length)]

theorem length_streamed (pushes : List Push) (written held : Nat) :
    (streamed pushes written held).length = pushes.length := by
  induction pushes generalizing written held with
  | nil => rfl
  | cons push rest ih => cases push <;> simp [streamed, ih]

theorem length_placed (pushes : List Push) (offset : Nat) :
    (placed pushes offset).length = pushes.length := by
  induction pushes generalizing offset with
  | nil => rfl
  | cons push rest ih => simp [placed, ih]

/-- What finishing a stream hands over and answers with. -/
theorem BundleStream.finish_eq_ok {writer : MultipartWriter} (accepting : writer.Accepting)
    {self : BundleStream} {spans : List CommittedSpan} {cost : Written} {bytes : List UInt8} :
    self.finish writer = .ok (spans, cost, bytes) ↔ self.regions.regions ≠ [] ∧
      (∀ region ∈ self.regions.regions, region.Formed) ∧ Fits self.regions.regions ∧
      spans = committedSpans self.regions.regions self.regions.producers ∧
      cost = ⟨self.written, self.parts.length + 1⟩ ∧
      bytes = self.parts.flatten ++ self.buffer ++ image self.regions.regions := by
  unfold finish BundleBuilder.intoFooter
  by_cases none : self.regions.regions.isEmpty = true
  · rw [if_pos none]
    exact iff_of_false nofun fun h => h.1 (List.isEmpty_iff.mp none)
  · have some : self.regions.regions ≠ [] := fun empty => none (List.isEmpty_iff.mpr empty)
    rw [if_neg none, bind_eq_ok]
    constructor
    · rintro ⟨⟨footer, made⟩, answered, h⟩
      obtain ⟨_, encoded, answer⟩ := bind_eq_ok.mp answered
      cases answer
      obtain ⟨formed, fits, rfl⟩ := encodeFooter_eq_ok.mp encoded
      dsimp only at h
      rw [accepting.writePart, bind_ok, accepting.finish, bind_ok] at h
      cases h
      exact ⟨some, formed, fits, rfl, by simp, by simp⟩
    · rintro ⟨-, formed, fits, rfl, rfl, rfl⟩
      refine ⟨_, bind_eq_ok.mpr ⟨_, encodeFooter_eq_ok.mpr ⟨formed, fits, rfl⟩, rfl⟩, ?_⟩
      dsimp only
      rw [accepting.writePart, bind_ok, accepting.finish, bind_ok]
      simp [pure, Except.pure]

section
variable {writer : MultipartWriter} {pushes : List Push}

theorem BundleStream.object_eq (accepting : writer.Accepting)
    (taken : ∀ push ∈ pushes, push.Taken) (small : (laid pushes).length ≤ u64Max) :
    ∃ stream : BundleStream, BundleStream.object writer pushes = stream.finish writer ∧
      stream.regions.regions = streamed pushes 0 0 ∧
      stream.regions.producers = pushes.map (fun push => push.pushed.producer) ∧
      stream.parts.flatten ++ stream.buffer = laid pushes := by
  obtain ⟨stream, ran, regions, producers, -, bytes⟩ :=
    BundleStream.calls_ok accepting taken {} ((Nat.zero_add _).trans_le small)
  refine ⟨stream, ?_, regions, producers, bytes⟩
  unfold BundleStream.object BundleStream.start
  rw [accepting.opened]
  change (pushes.foldlM (BundleStream.call writer) {} >>= fun stream => stream.finish writer) = _
  rw [ran, bind_ok]

variable {builder : BundleBuilder} {object : SealedBundle}

theorem small_of_seal (accepted : pushes.foldlM BundleBuilder.call {} = .ok builder)
    (sealed_ : builder.seal = .ok object) (small : object.payload.length ≤ u64Max) :
    (laid pushes).length ≤ u64Max := by
  obtain ⟨-, -, -, -, -, payload⟩ := seal_of_calls accepted sealed_
  rw [payload, List.length_append] at small
  omega

theorem cipheredFirst_of_agrees (accepting : writer.Accepting)
    (accepted : pushes.foldlM BundleBuilder.call {} = .ok builder)
    (sealed_ : builder.seal = .ok object) (small : object.payload.length ≤ u64Max) {cost : Written}
    (same : BundleStream.object writer pushes = .ok (object.spans, cost, object.payload)) :
    CipheredFirst pushes := by
  have room := small_of_seal accepted sealed_ small
  obtain ⟨taken, rfl⟩ := BundleBuilder.calls_eq_ok.mp accepted
  obtain ⟨-, -, -, rfl⟩ := BundleBuilder.seal_eq_ok.mp sealed_
  obtain ⟨stream, run, regions, producers, -⟩ := BundleStream.object_eq accepting taken room
  rw [run] at same
  obtain ⟨-, -, -, spans, -, -⟩ := (BundleStream.finish_eq_ok accepting).mp same
  have bytes := congrArg (List.map CommittedSpan.bytes) spans
  rw [regions, producers] at bytes
  change (committedSpans (placed pushes 0) (pushes.map fun push => push.pushed.producer)).map _ =
    (committedSpans (streamed pushes 0 0) _).map _ at bytes
  rw [committedSpans_bytes (by rw [length_placed, List.length_map]),
    committedSpans_bytes (by rw [length_streamed, List.length_map])] at bytes
  exact ((streamed_bytes_iff taken (Nat.le_refl 0)).mp bytes.symm).2

theorem agrees_of_cipheredFirst (accepting : writer.Accepting)
    (accepted : pushes.foldlM BundleBuilder.call {} = .ok builder)
    (sealed_ : builder.seal = .ok object) (small : object.payload.length ≤ u64Max)
    (first : CipheredFirst pushes) :
    ∃ cost, BundleStream.object writer pushes = .ok (object.spans, cost, object.payload) := by
  have room := small_of_seal accepted sealed_ small
  obtain ⟨taken, rfl⟩ := BundleBuilder.calls_eq_ok.mp accepted
  obtain ⟨some, formed, fits, rfl⟩ := BundleBuilder.seal_eq_ok.mp sealed_
  obtain ⟨stream, run, regions, producers, bytes⟩ := BundleStream.object_eq accepting taken room
  have same : streamed pushes 0 0 = placed pushes 0 :=
    streamed_of_bytes ((streamed_bytes_iff taken (Nat.le_refl 0)).mpr ⟨.inl rfl, first⟩)
  rw [same] at regions
  rw [run]
  refine ⟨_, (BundleStream.finish_eq_ok accepting).mpr ⟨?_, ?_, ?_, ?_, rfl, ?_⟩⟩
  · rw [regions]
    exact some
  · rw [regions]
    exact formed
  · rw [regions]
    exact fits
  · rw [regions, producers]
    rfl
  · rw [regions, bytes]
    rfl

/-- A stream writes what a builder seals, and answers with the same spans, exactly when
every sealed push comes before every plain one. -/
theorem stream_agrees_iff (accepting : writer.Accepting)
    (accepted : pushes.foldlM BundleBuilder.call {} = .ok builder)
    (sealed_ : builder.seal = .ok object) (small : object.payload.length ≤ u64Max) :
    (∃ cost, BundleStream.object writer pushes = .ok (object.spans, cost, object.payload)) ↔
      CipheredFirst pushes := by
  constructor
  · rintro ⟨cost, same⟩
    exact cipheredFirst_of_agrees accepting accepted sealed_ small same
  · exact agrees_of_cipheredFirst accepting accepted sealed_ small

end

namespace BundleStream

variable {writer : MultipartWriter}

theorem flush_eq_ok {rounds : Nat} {self next : BundleStream}
    (h : flush writer rounds self = .ok next) :
    ∃ parts buffer, next = { self with parts := parts, buffer := buffer } ∧
      parts.flatten ++ buffer = self.parts.flatten ++ self.buffer := by
  induction rounds generalizing self with
  | zero =>
    cases h
    exact ⟨_, _, rfl, rfl⟩
  | succ rounds ih =>
    unfold flush at h
    split at h
    · cases h
      exact ⟨_, _, rfl, rfl⟩
    · obtain ⟨⟨⟩, -, h⟩ := bind_eq_ok.mp h
      obtain ⟨parts, buffer, rfl, same⟩ := ih h
      refine ⟨parts, buffer, rfl, same.trans ?_⟩
      simp

theorem extend_eq_ok {self next : BundleStream} {regions : BundleBuilder} {bytes : List UInt8}
    (h : self.extend writer regions bytes = .ok next) :
    next.regions = regions ∧ next.written = min (self.written + bytes.length) u64Max ∧
      next.parts.flatten ++ next.buffer = self.parts.flatten ++ self.buffer ++ bytes := by
  obtain ⟨parts, buffer, rfl, same⟩ := flush_eq_ok h
  exact ⟨rfl, rfl, same.trans (List.append_assoc ..).symm⟩

theorem pushStreamed_eq_ok {builder next : BundleBuilder} {topic : TopicId} {partition : Nat}
    {pushed : PushedRecords} {records : List UInt8} {offset : Nat}
    (h : builder.pushStreamed topic partition pushed offset records.length = .ok next) :
    (Push.plain topic partition pushed records).Taken ∧
      next = recorded builder offset (.plain topic partition pushed records) := by
  unfold BundleBuilder.pushStreamed at h
  obtain ⟨⟨⟩, admitted, h⟩ := bind_eq_ok.mp h
  obtain ⟨range, made, h⟩ := bind_eq_ok.mp h
  cases h
  obtain ⟨short, some⟩ := admissible_eq_ok.mp admitted
  obtain ⟨rfl, nonzero⟩ := ByteRange.new_eq_ok.mp made
  exact ⟨⟨short, some, nonzero, by simp [Push.alg, Push.envelope]⟩, rfl⟩

theorem call_eq_ok {self next : BundleStream} {push : Push}
    (h : self.call writer push = .ok next) : push.Taken ∧
      next.regions = recorded self.regions self.written push ∧
      next.written = min (self.written + push.bytes.length) u64Max ∧
      next.parts.flatten ++ next.buffer = self.parts.flatten ++ self.buffer ++ push.bytes := by
  cases push with
  | plain topic partition pushed records =>
    obtain ⟨regions, streamed, extended⟩ := bind_eq_ok.mp h
    obtain ⟨taken, rfl⟩ := pushStreamed_eq_ok streamed
    exact ⟨taken, extend_eq_ok extended⟩
  | ciphered topic partition pushed region =>
    obtain ⟨regions, called, extended⟩ := bind_eq_ok.mp h
    obtain ⟨taken, rfl⟩ := BundleBuilder.call_eq_ok.mp
      (show self.regions.call (.ciphered topic partition pushed region) = .ok regions from called)
    exact ⟨taken, extend_eq_ok extended⟩

/-- What a run of pushes that succeeds leaves, its bytes countable or not. -/
theorem calls_eq_ok {pushes : List Push} {self next : BundleStream}
    (h : pushes.foldlM (call writer) self = .ok next) : (∀ push ∈ pushes, push.Taken) ∧
      next.parts.flatten ++ next.buffer = self.parts.flatten ++ self.buffer ++ laid pushes ∧
      (self.written + (laid pushes).length ≤ u64Max →
        next.regions.regions =
          self.regions.regions ++ streamed pushes self.written self.regions.payload.length ∧
        next.regions.producers =
          self.regions.producers ++ pushes.map (fun push => push.pushed.producer)) := by
  induction pushes generalizing self with
  | nil =>
    cases h
    exact ⟨by simp, by simp [laid], by simp [streamed]⟩
  | cons push rest ih =>
    obtain ⟨mid, called, ran⟩ := bind_eq_ok.mp h
    obtain ⟨here, regions, written, bytes⟩ := call_eq_ok called
    obtain ⟨later, all, counted⟩ := ih ran
    have length : (laid (push :: rest)).length = push.bytes.length + (laid rest).length := by
      simp [laid]
    refine ⟨List.forall_mem_cons.mpr ⟨here, later⟩, ?_, fun small => ?_⟩
    · rw [all, bytes]
      simp [laid]
    · have unsaturated : min (self.written + push.bytes.length) u64Max =
          self.written + push.bytes.length := Nat.min_eq_left (by omega)
      rw [unsaturated] at written
      obtain ⟨placed, producers⟩ := counted (by omega)
      rw [regions, written] at placed
      rw [regions] at producers
      rw [placed, producers]
      constructor
      · cases push <;> simp [recorded, streamed, Push.bytes]
      · cases push <;> simp [recorded, Push.pushed]

end BundleStream

def takingWriter : MultipartWriter := ⟨.ok (), fun _ _ => .ok (), fun _ => .ok ()⟩

theorem takingWriter_accepting : takingWriter.Accepting := ⟨rfl, fun _ _ => rfl, fun _ => rfl⟩

def orderedPushes : List Push := mixedPushes.reverse

/-- With the sealed push first, the stream writes the sealed object. -/
theorem stream_agrees_ordered : ∃ builder object cost,
    orderedPushes.foldlM BundleBuilder.call {} = .ok builder ∧ builder.seal = .ok object ∧
      BundleStream.object takingWriter orderedPushes = .ok (object.spans, cost, object.payload) := by
  have taken : ∀ push ∈ orderedPushes, push.Taken :=
    fun p h => mixed_taken p (List.mem_reverse.mp h)
  obtain ⟨builder, object, accepted, sealed_, -, payload⟩ :=
    exists_seal taken (by decide) (by decide)
  have small : object.payload.length ≤ u64Max := by
    rw [payload]
    decide
  obtain ⟨cost, same⟩ :=
    (stream_agrees_iff takingWriter_accepting accepted sealed_ small).mpr (by decide)
  exact ⟨builder, object, cost, accepted, sealed_, same⟩

/-- With the plain push first, the stream's footer places the sealed bytes at the
object's first byte, where the plain ones are. -/
theorem stream_misplaces_mixed : ∃ builder object,
    mixedPushes.foldlM BundleBuilder.call {} = .ok builder ∧ builder.seal = .ok object ∧
      ∀ cost, BundleStream.object takingWriter mixedPushes ≠
        .ok (object.spans, cost, object.payload) := by
  obtain ⟨builder, object, accepted, sealed_, -, payload⟩ :=
    exists_seal mixed_taken (by decide) (by decide)
  have small : object.payload.length ≤ u64Max := by
    rw [payload]
    decide
  refine ⟨builder, object, accepted, sealed_, fun cost same => ?_⟩
  have first := cipheredFirst_of_agrees takingWriter_accepting accepted sealed_ small same
  exact absurd first (by decide)

end Oqueue
