import Oqueue.Core.FooterFormat

/-!
# What a bundle is sealed to is what a reader finds

A builder lays its regions one after another and ends the object with their footer.
Out of any tail wide enough to hold it a reader gets the same regions back, and out
of a narrower one it learns how much wider to read.
-/

namespace Oqueue

open Checked Footer Segment Tiling

/-- One push onto a bundle: records as written, or sealed ones with their envelope. -/
inductive Push where
  | plain (topic : TopicId) (partition : Nat) (pushed : PushedRecords) (records : List UInt8)
  | ciphered (topic : TopicId) (partition : Nat) (pushed : PushedRecords) (region : SealedRegion)
  deriving DecidableEq, Repr

namespace Push

def topic : Push → TopicId
  | plain topic .. => topic
  | ciphered topic .. => topic

def partition : Push → Nat
  | plain _ partition .. => partition
  | ciphered _ partition .. => partition

def pushed : Push → PushedRecords
  | plain _ _ pushed _ => pushed
  | ciphered _ _ pushed _ => pushed

def bytes : Push → List UInt8
  | plain _ _ _ records => records
  | ciphered _ _ _ region => region.bytes

def alg : Push → RegionAlg
  | plain .. => .none
  | ciphered _ _ _ region => region.alg

def envelope : Push → Option RegionEnvelope
  | plain .. => none
  | ciphered _ _ _ region => some region.envelope

/-- The region a push makes of its bytes, wherever they begin. -/
def region (self : Push) (offset : Nat) : Region :=
  ⟨self.topic, self.partition, .bounded offset self.bytes.length, self.pushed.count, self.alg,
    self.envelope⟩

/-- Every argument of a push holds a value of the source's own type. -/
structure Typed (push : Push) : Prop where
  topic : push.topic.Typed
  partition : push.partition < 2 ^ 31
  count : push.pushed.count < 2 ^ 32

/-- What a builder takes: some bytes, some records, a name that fits, and an
algorithm exactly where there is an envelope. -/
structure Taken (push : Push) : Prop where
  topic : Short push.topic.name
  count : push.pushed.count ≠ 0
  bytes : push.bytes.length ≠ 0
  agrees : push.alg = .none ↔ push.envelope = none

end Push

def BundleBuilder.call (self : BundleBuilder) : Push → Except Error BundleBuilder
  | .plain topic partition pushed records => self.push topic partition pushed records
  | .ciphered topic partition pushed region => self.pushSealed topic partition pushed region

theorem admissible_eq_ok {topic : TopicId} {recordCount : Nat} :
    admissible topic recordCount = .ok () ↔ Short topic.name ∧ recordCount ≠ 0 := by
  unfold admissible Short maxTopicNameLen
  by_cases long : 2 ^ 16 - 1 < (utf8 topic.name).length
  · rw [if_pos long]
    refine iff_of_false nofun fun h => ?_
    omega
  · rw [if_neg long]
    by_cases empty : recordCount = 0
    · rw [if_pos empty]
      exact iff_of_false nofun fun h => h.2 empty
    · rw [if_neg empty]
      refine iff_of_true rfl ⟨by omega, empty⟩

theorem BundleBuilder.call_eq_ok {self next : BundleBuilder} {push : Push} :
    self.call push = .ok next ↔ push.Taken ∧ next = {
      payload := self.payload ++ push.bytes
      regions := self.regions ++ [push.region self.payload.length]
      producers := self.producers ++ [push.pushed.producer] } := by
  cases push with
  | plain topic partition pushed records =>
    simp only [BundleBuilder.call, BundleBuilder.push, bind_eq_ok]
    constructor
    · rintro ⟨⟨⟩, admitted, range, made, h⟩
      cases h
      obtain ⟨short, some⟩ := admissible_eq_ok.mp admitted
      obtain ⟨rfl, nonzero⟩ := ByteRange.new_eq_ok.mp made
      exact ⟨⟨short, some, nonzero, by simp [Push.alg, Push.envelope]⟩, rfl⟩
    · rintro ⟨⟨short, some, nonzero, -⟩, rfl⟩
      exact ⟨(), admissible_eq_ok.mpr ⟨short, some⟩, _, ByteRange.new_eq_ok.mpr ⟨rfl, nonzero⟩, rfl⟩
  | ciphered topic partition pushed region =>
    simp only [BundleBuilder.call, BundleBuilder.pushSealed, bind_eq_ok]
    constructor
    · rintro ⟨⟨⟩, admitted, h⟩
      obtain ⟨short, some⟩ := admissible_eq_ok.mp admitted
      split at h
      · cases h
      rename_i ciphered
      obtain ⟨range, made, h⟩ := bind_eq_ok.mp h
      cases h
      obtain ⟨rfl, nonzero⟩ := ByteRange.new_eq_ok.mp made
      exact ⟨⟨short, some, nonzero, by simpa [Push.alg, Push.envelope] using ciphered⟩, rfl⟩
    · rintro ⟨⟨short, some, nonzero, agrees⟩, rfl⟩
      have ciphered : region.alg ≠ .none := fun plain => by cases agrees.mp plain
      refine ⟨(), admissible_eq_ok.mpr ⟨short, some⟩, ?_⟩
      rw [if_neg ciphered, bind_eq_ok]
      exact ⟨_, ByteRange.new_eq_ok.mpr ⟨rfl, nonzero⟩, rfl⟩

def placed : List Push → Nat → List Region
  | [], _ => []
  | push :: rest, offset => push.region offset :: placed rest (offset + push.bytes.length)

def laid (pushes : List Push) : List UInt8 := pushes.flatMap Push.bytes

theorem mem_placed {pushes : List Push} {offset : Nat} {region : Region}
    (h : region ∈ placed pushes offset) :
    ∃ push ∈ pushes, ∃ begins, region = push.region begins ∧
      begins + push.bytes.length ≤ offset + (laid pushes).length := by
  induction pushes generalizing offset with
  | nil => cases h
  | cons push rest ih =>
    have length : (laid (push :: rest)).length = push.bytes.length + (laid rest).length := by
      simp [laid]
    rcases List.mem_cons.mp h with rfl | h
    · exact ⟨push, List.mem_cons_self .., offset, rfl, by omega⟩
    · obtain ⟨other, hother, begins, rfl, ends⟩ := ih h
      exact ⟨other, List.mem_cons_of_mem _ hother, begins, rfl, by omega⟩

theorem placed_tiles {pushes : List Push} (taken : ∀ push ∈ pushes, push.Taken) (offset : Nat) :
    RegionTiles (placed pushes offset) offset (offset + (laid pushes).length) := by
  induction pushes generalizing offset with
  | nil => exact tiles_nil.mpr rfl
  | cons push rest ih =>
    have nonzero := (taken push (List.mem_cons_self ..)).bytes
    have rest_tiles := ih (fun p h => taken p (List.mem_cons_of_mem _ h))
      (offset + push.bytes.length)
    have length : (laid (push :: rest)).length = push.bytes.length + (laid rest).length := by
      simp [laid]
    rw [Nat.add_assoc, ← length] at rest_tiles
    exact ⟨rfl, Nat.lt_add_of_pos_right (Nat.pos_of_ne_zero nonzero), rest_tiles⟩

def Region.slice (object : List UInt8) (region : Region) : List UInt8 :=
  (object.drop region.offset).take (region.stop - region.offset)

theorem placed_slice (pushes : List Push) (before after : List UInt8) :
    (placed pushes before.length).map (Region.slice (before ++ (laid pushes ++ after))) =
      pushes.map Push.bytes := by
  induction pushes generalizing before with
  | nil => rfl
  | cons push rest ih =>
    have split : before ++ (laid (push :: rest) ++ after) =
        (before ++ push.bytes) ++ (laid rest ++ after) := by simp [laid]
    have here : Region.slice (before ++ (laid (push :: rest) ++ after))
        (push.region before.length) = push.bytes := by
      have width : (push.region before.length).stop - (push.region before.length).offset =
          push.bytes.length := Nat.add_sub_cancel_left ..
      have begins : (push.region before.length).offset = before.length := rfl
      unfold Region.slice
      rw [width, begins, List.drop_left]
      simp [laid]
    have later := ih (before ++ push.bytes)
    rw [List.length_append, ← split] at later
    rw [placed, List.map_cons, List.map_cons, here, later]

/-- What a run of pushes leaves in a builder. -/
theorem BundleBuilder.calls_eq_ok {pushes : List Push} {self next : BundleBuilder} :
    pushes.foldlM BundleBuilder.call self = .ok next ↔ (∀ push ∈ pushes, push.Taken) ∧ next = {
      payload := self.payload ++ laid pushes
      regions := self.regions ++ placed pushes self.payload.length
      producers := self.producers ++ pushes.map fun push => push.pushed.producer } := by
  induction pushes generalizing self with
  | nil =>
    simp only [laid, placed, List.flatMap_nil, List.map_nil, List.append_nil, List.not_mem_nil,
      false_implies, implies_true, true_and]
    exact ⟨fun h => by cases h; rfl, fun h => by rw [h]; rfl⟩
  | cons push rest ih =>
    rw [List.foldlM_cons, bind_eq_ok, List.forall_mem_cons]
    constructor
    · rintro ⟨mid, called, h⟩
      obtain ⟨here, rfl⟩ := BundleBuilder.call_eq_ok.mp called
      obtain ⟨later, rfl⟩ := ih.mp h
      exact ⟨⟨here, later⟩, by simp [laid, placed]⟩
    · rintro ⟨⟨here, later⟩, rfl⟩
      refine ⟨_, BundleBuilder.call_eq_ok.mpr ⟨here, rfl⟩, ih.mpr ⟨later, ?_⟩⟩
      simp [laid, placed]

theorem BundleBuilder.seal_eq_ok {self : BundleBuilder} {object : SealedBundle} :
    self.seal = .ok object ↔ self.regions ≠ [] ∧ (∀ region ∈ self.regions, region.Formed) ∧
      Fits self.regions ∧ object = ⟨self.payload ++ image self.regions, self.regions,
        committedSpans self.regions self.producers⟩ := by
  unfold BundleBuilder.seal
  by_cases none : self.regions.isEmpty = true
  · rw [if_pos none]
    exact iff_of_false nofun fun h => h.1 (List.isEmpty_iff.mp none)
  · rw [if_neg none, bind_eq_ok]
    have some : self.regions ≠ [] := fun empty => none (List.isEmpty_iff.mpr empty)
    constructor
    · rintro ⟨payload, encoded, h⟩
      cases h
      obtain ⟨formed, fits, rfl⟩ := encodeFooter_eq_ok.mp encoded
      exact ⟨some, formed, fits, rfl⟩
    · rintro ⟨-, formed, fits, rfl⟩
      exact ⟨_, encodeFooter_eq_ok.mpr ⟨formed, fits, rfl⟩, rfl⟩

theorem seal_of_calls {pushes : List Push} {builder : BundleBuilder} {object : SealedBundle}
    (accepted : pushes.foldlM BundleBuilder.call {} = .ok builder)
    (sealed_ : builder.seal = .ok object) :
    (∀ push ∈ pushes, push.Taken) ∧ object.regions = placed pushes 0 ∧ object.regions ≠ [] ∧
      (∀ region ∈ object.regions, region.Formed) ∧ Fits object.regions ∧
      object.payload = laid pushes ++ image object.regions := by
  obtain ⟨taken, rfl⟩ := BundleBuilder.calls_eq_ok.mp accepted
  obtain ⟨some, formed, fits, rfl⟩ := BundleBuilder.seal_eq_ok.mp sealed_
  exact ⟨taken, rfl, some, formed, fits, rfl⟩

theorem Push.Taken.formed {push : Push} (taken : push.Taken) (offset : Nat) :
    (push.region offset).Formed := ⟨taken.topic, nofun, taken.agrees⟩

theorem exists_seal {pushes : List Push} (taken : ∀ push ∈ pushes, push.Taken) (some : pushes ≠ [])
    (fits : Fits (placed pushes 0)) : ∃ builder object,
      pushes.foldlM BundleBuilder.call {} = .ok builder ∧ builder.seal = .ok object ∧
        object.regions = placed pushes 0 ∧
        object.payload = laid pushes ++ image (placed pushes 0) := by
  have formed : ∀ region ∈ placed pushes 0, region.Formed := by
    intro region hregion
    obtain ⟨push, hpush, begins, rfl, -⟩ := mem_placed hregion
    exact (taken push hpush).formed begins
  have regions : placed pushes 0 ≠ [] := by
    cases pushes with
    | nil => exact absurd rfl some
    | cons push rest => exact List.cons_ne_nil _ _
  exact ⟨⟨laid pushes, placed pushes 0, pushes.map fun push => push.pushed.producer⟩, _,
    BundleBuilder.calls_eq_ok.mpr ⟨taken, rfl⟩,
    BundleBuilder.seal_eq_ok.mpr ⟨regions, formed, fits, rfl⟩, rfl, rfl⟩

def tailOf (object : List UInt8) (width : Nat) : List UInt8 := object.drop (object.length - width)

/-- Reads the footer out of the last so many bytes, and out of as many as a tail that
was too short says are needed, so many times. -/
def readFooter (object : List UInt8) : Nat → Nat → Except Error (List Region)
  | 0, width => parseFooter (tailOf object width) object.length
  | rereads + 1, width =>
    match parseFooter (tailOf object width) object.length with
    | .error (.bundleTailTooShort _ needed) => readFooter object rereads needed
    | other => other

theorem tail_of_append {before tail front back : List UInt8} (same : before ++ tail = front ++ back)
    (longer : back.length ≤ tail.length) : ∃ middle, tail = middle ++ back := by
  obtain ⟨middle, hmiddle⟩ := List.suffix_of_suffix_length_le (List.suffix_append front back)
    (same ▸ List.suffix_append before tail) longer
  exact ⟨middle, hmiddle.symm⟩

section
variable {payload tail before : List UInt8} {regions : List Region}

theorem parseFooter_of_tail (some : regions ≠ [])
    (valid : ∀ region ∈ regions, region.Typed ∧ region.Formed ∧ region.recordCount ≠ 0)
    (fits : Fits regions) (tiles : RegionTiles regions 0 payload.length)
    (small : (payload ++ image regions).length ≤ u64Max)
    (split : payload ++ image regions = before ++ tail)
    (holds : (image regions).length ≤ tail.length) :
    parseFooter tail (payload ++ image regions).length = .ok regions := by
  refine (parseFooter_eq_ok small).mpr ⟨some, valid, fits, tail_of_append split.symm holds, ?_, ?_⟩
  · rw [List.length_append]
    exact Nat.le_add_left ..
  · rw [List.length_append, Nat.add_sub_cancel]
    exact tiles

/-- A narrower tail says how much wider to read: first for the trailer, then for what
the trailer says the footer has. -/
theorem parseFooter_of_short (some : regions ≠ []) (fits : Fits regions)
    (split : payload ++ image regions = before ++ tail)
    (short : tail.length < (image regions).length) :
    parseFooter tail (payload ++ image regions).length = .error (.bundleTailTooShort tail.length
      (if tail.length < trailerLen then trailerLen else (image regions).length)) := by
  have length := length_image regions
  have room : (image regions).length ≤ (payload ++ image regions).length := by
    rw [List.length_append]
    exact Nat.le_add_left ..
  by_cases narrow : tail.length < trailerLen
  · unfold parseFooter shortTailOrCorrupt
    dsimp only
    rw [if_pos narrow, if_pos narrow, if_neg (by omega)]
  · obtain ⟨front, rfl⟩ : ∃ front, tail = front ++ trailerImage regions.length
        (regionsImage regions).length := by
      refine @tail_of_append before _ (payload ++ regionsImage regions) _ ?_ ?_
      · rw [← split, List.append_assoc]
        rfl
      · rw [length_trailerImage]
        omega
    have width : (front ++ trailerImage regions.length (regionsImage regions).length).length =
        front.length + trailerLen := by rw [List.length_append, length_trailerImage]
    rw [if_neg narrow, parseFooter_trailer fits.2 fits.1,
      if_neg (fun none => some (List.length_eq_zero_iff.mp none)), if_pos (by omega), width, ← length]
    unfold shortTailOrCorrupt
    rw [if_neg (by omega)]

/-- Whatever tail a reader begins with, two wider ones at most are enough. -/
theorem readFooter_two (some : regions ≠ [])
    (valid : ∀ region ∈ regions, region.Typed ∧ region.Formed ∧ region.recordCount ≠ 0)
    (fits : Fits regions) (tiles : RegionTiles regions 0 payload.length)
    (small : (payload ++ image regions).length ≤ u64Max) {width : Nat}
    (inside : width ≤ (payload ++ image regions).length) :
    readFooter (payload ++ image regions) 2 width = .ok regions := by
  have length := length_image regions
  have total : (payload ++ image regions).length = payload.length + (image regions).length :=
    List.length_append ..
  have cut : ∀ width ≤ (payload ++ image regions).length,
      payload ++ image regions = (payload ++ image regions).take
        ((payload ++ image regions).length - width) ++ tailOf (payload ++ image regions) width ∧
      (tailOf (payload ++ image regions) width).length = width := by
    intro width inside
    refine ⟨(List.take_append_drop _ _).symm, ?_⟩
    unfold tailOf
    rw [List.length_drop]
    omega
  have wide : ∀ width ≤ (payload ++ image regions).length, (image regions).length ≤ width →
      ∀ rereads, readFooter (payload ++ image regions) rereads width = .ok regions := by
    intro width inside holds rereads
    have parsed := parseFooter_of_tail some valid fits tiles small (cut width inside).1
      ((cut width inside).2.symm ▸ holds)
    cases rereads with
    | zero => exact parsed
    | succ rereads =>
      unfold readFooter
      rw [parsed]
  have narrow : ∀ width ≤ (payload ++ image regions).length, width < (image regions).length →
      ∀ rereads, readFooter (payload ++ image regions) (rereads + 1) width =
        readFooter (payload ++ image regions) rereads
          (if width < trailerLen then trailerLen else (image regions).length) := by
    intro width inside short rereads
    have parsed := parseFooter_of_short some fits (cut width inside).1
      ((cut width inside).2.symm ▸ short)
    rw [(cut width inside).2] at parsed
    conv_lhs => unfold readFooter
    rw [parsed]
  by_cases holds : (image regions).length ≤ width
  · exact wide width inside holds 2
  · rw [narrow width inside (Nat.not_le.mp holds)]
    by_cases short : width < trailerLen
    · rw [if_pos short]
      by_cases bare : (image regions).length ≤ trailerLen
      · exact wide trailerLen (by omega) bare 1
      · rw [narrow trailerLen (by omega) (Nat.not_le.mp bare), if_neg (Nat.lt_irrefl _)]
        exact wide _ (by omega) (Nat.le_refl _) 0
    · rw [if_neg short]
      exact wide _ (by omega) (Nat.le_refl _) 1

end

/-- An object read whole parses to the regions pushed, and they cut out the pushed bytes. -/
theorem whole_reads_back {pushes : List Push} (typed : ∀ push ∈ pushes, push.Typed)
    {builder : BundleBuilder} (accepted : pushes.foldlM BundleBuilder.call {} = .ok builder)
    {object : SealedBundle} (sealed_ : builder.seal = .ok object)
    (small : object.payload.length ≤ u64Max) :
    object.regions = placed pushes 0 ∧
      object.regions.map (Region.slice object.payload) = pushes.map Push.bytes ∧
      parseFooter object.payload object.payload.length = .ok object.regions := by
  obtain ⟨taken, regions, some, formed, fits, payload⟩ := seal_of_calls accepted sealed_
  have valid : ∀ region ∈ object.regions,
      region.Typed ∧ region.Formed ∧ region.recordCount ≠ 0 := by
    intro region hregion
    obtain ⟨push, hpush, begins, same, ends⟩ := mem_placed (regions ▸ hregion)
    have source := typed push hpush
    have room := congrArg List.length payload
    rw [List.length_append] at room
    have bounds : begins < 2 ^ 64 ∧ push.bytes.length < 2 ^ 64 := by
      unfold u64Max at small
      omega
    rw [same]
    exact ⟨⟨source.topic, source.partition, ⟨bounds, (taken push hpush).bytes⟩, source.count⟩,
      same ▸ formed region hregion, (taken push hpush).count⟩
  have tiles := placed_tiles taken 0
  rw [Nat.zero_add, ← regions] at tiles
  rw [payload] at small ⊢
  refine ⟨regions, ?_, parseFooter_of_tail some valid fits tiles small (List.nil_append _).symm ?_⟩
  · have cut := placed_slice pushes [] (image object.regions)
    rw [List.nil_append] at cut
    rw [← cut]
    exact congrArg (List.map _) regions
  · rw [List.length_append]
    exact Nat.le_add_left ..

/-- What is pushed is what any reader of the object's end gets back: out of a tail that
holds the footer the regions themselves, which cut out the pushed bytes; out of a
narrower one a wider tail to ask for, and the regions in two more reads. Whatever
bytes a footer is parsed out of, its regions fill the object's payload in order. -/
theorem bundle_reads_back {pushes : List Push} (typed : ∀ push ∈ pushes, push.Typed)
    {builder : BundleBuilder} (accepted : pushes.foldlM BundleBuilder.call {} = .ok builder)
    {object : SealedBundle} (sealed_ : builder.seal = .ok object)
    (small : object.payload.length ≤ u64Max) :
    object.regions = placed pushes 0 ∧
    object.regions.map (Region.slice object.payload) = pushes.map Push.bytes ∧
    (∀ before tail, object.payload = before ++ tail →
      ((image object.regions).length ≤ tail.length →
        parseFooter tail object.payload.length = .ok object.regions) ∧
      (tail.length < (image object.regions).length →
        (∃ needed, parseFooter tail object.payload.length =
            .error (.bundleTailTooShort tail.length needed) ∧
          tail.length < needed ∧ needed ≤ object.payload.length) ∧
        readFooter object.payload 2 tail.length = .ok object.regions)) ∧
    ∀ tail objectSize regions, objectSize ≤ u64Max → parseFooter tail objectSize = .ok regions →
      (∃ before, tail = before ++ image regions) ∧ (image regions).length ≤ objectSize ∧
        RegionTiles regions 0 (objectSize - (image regions).length) := by
  obtain ⟨taken, regions, some, formed, fits, payload⟩ := seal_of_calls accepted sealed_
  have length := length_image object.regions
  have room : object.payload.length = (laid pushes).length + (image object.regions).length := by
    rw [payload, List.length_append]
  have tiles : RegionTiles object.regions 0 (laid pushes).length := by
    have placed := placed_tiles taken 0
    rw [Nat.zero_add] at placed
    exact regions ▸ placed
  have valid : ∀ region ∈ object.regions,
      region.Typed ∧ region.Formed ∧ region.recordCount ≠ 0 := by
    intro region hregion
    obtain ⟨push, hpush, begins, same, ends⟩ := mem_placed (regions ▸ hregion)
    have source := typed push hpush
    have bounds : begins < 2 ^ 64 ∧ push.bytes.length < 2 ^ 64 := by
      unfold u64Max at small
      omega
    refine ⟨?_, formed region hregion, ?_⟩
    · rw [same]
      exact ⟨source.topic, source.partition, ⟨bounds, (taken push hpush).bytes⟩, source.count⟩
    · rw [same]
      exact (taken push hpush).count
  rw [payload] at small room ⊢
  refine ⟨regions, ?_, ?_, ?_⟩
  · have cut := placed_slice pushes [] (image object.regions)
    rw [List.nil_append] at cut
    rw [← cut]
    exact congrArg (List.map _) regions
  · intro before tail split
    refine ⟨parseFooter_of_tail some valid fits tiles small split, fun short => ⟨⟨_,
      parseFooter_of_short some fits split short, ?_, ?_⟩, ?_⟩⟩
    · split_ifs
      · assumption
      · exact short
    · split_ifs <;> omega
    · exact readFooter_two some valid fits tiles small (by omega)
  · intro tail objectSize found sized parsed
    obtain ⟨-, -, -, ends, holds, fills⟩ := (parseFooter_eq_ok sized).mp parsed
    exact ⟨ends, holds, fills⟩

/-- A region stored as written and a sealed one, of two topics. -/
def mixedPushes : List Push :=
  [.plain ⟨"a"⟩ 0 ⟨1, none⟩ [7],
    .ciphered ⟨"b"⟩ 3 ⟨2, none⟩ ⟨[8, 9], .aes256Gcm, {
      keyId := .k
      wrappedDek := [1]
      nonce := List.replicate 12 0
      wrapped := by decide
      whole := by decide }⟩]

theorem mixed_taken : ∀ push ∈ mixedPushes, push.Taken := by
  simp only [mixedPushes, List.forall_mem_cons, List.not_mem_nil, false_implies, implies_true,
    and_true]
  exact ⟨⟨by decide, by decide, by decide, by decide⟩, by decide, by decide, by decide, by decide⟩

theorem bundle_reads_back_mixed : ∃ builder object,
    mixedPushes.foldlM BundleBuilder.call {} = .ok builder ∧ builder.seal = .ok object ∧
      object.regions.map (Region.slice object.payload) = [[7], [8, 9]] ∧
      readFooter object.payload 2 0 = .ok object.regions := by
  have typed : ∀ push ∈ mixedPushes, push.Typed := by
    simp only [mixedPushes, List.forall_mem_cons, List.not_mem_nil, false_implies, implies_true,
      and_true]
    exact ⟨⟨rfl, by decide, by decide⟩, rfl, by decide, by decide⟩
  obtain ⟨builder, object, accepted, sealed_, -, payload⟩ :=
    exists_seal mixed_taken (List.cons_ne_nil _ _) (by decide)
  have small : object.payload.length ≤ u64Max := by
    rw [payload]
    decide
  obtain ⟨-, sliced, tails, -⟩ := bundle_reads_back typed accepted sealed_ small
  have short : 0 < (image object.regions).length := by
    rw [length_image]
    exact Nat.lt_of_lt_of_le (by decide) (Nat.le_add_left trailerLen _)
  exact ⟨builder, object, accepted, sealed_, sliced, ((tails _ [] (List.append_nil _).symm).2 short).2⟩

end Oqueue
