import Oqueue.Broker.Seam
import Oqueue.Core.BundleReads

/-!
# Cutting one partition's region out of an object

The history tier names a whole object: the region is found in its footer, and checked against
the topic's key domain.
-/

namespace Oqueue.Broker

open Checked Codec Footer Tiling

/-- The one region a partition's records live in; two of them say nothing. -/
def regionFor (regions : List Region) (topic : TopicId) (partition : Nat) (domain : KeyDomain) :
    Except Error ByteRange :=
  match regions.filter fun region => decide (region.key = (topic, partition)) with
  | [region] => do
    domain.validateRegion region
    return region.bytes
  | _ => .error .indexObjectMismatch

/-- A partition's records, cut out of a whole bundled object. -/
def sliceRegion (whole : List UInt8) (topic : TopicId) (partition : Nat) (domain : KeyDomain) :
    Except Error (List UInt8) := do
  let regions ← parseFooter whole whole.length
  match ← regionFor regions topic partition domain with
  | .full => .error .indexObjectMismatch
  | .bounded offset length =>
    if offset + length ≤ whole.length then .ok ((whole.drop offset).take length)
    else .error .indexObjectMismatch

/-- The region a topic's key domain lets a partition have; a topic that is not served has no
domain. -/
def domainRegion (topicKeyDomain : TopicId → Option KeyDomain) (topic : TopicId) (partition : Nat)
    (whole : List UInt8) : Except Error (List UInt8) :=
  match topicKeyDomain topic with
  | none => .error .indexObjectMismatch
  | some domain => sliceRegion whole topic partition domain

theorem regionFor_eq_ok {regions : List Region} {topic : TopicId} {partition : Nat}
    {domain : KeyDomain} {bytes : ByteRange} :
    regionFor regions topic partition domain = .ok bytes ↔ ∃ region,
      regions.filter (fun region => decide (region.key = (topic, partition))) = [region] ∧
      domain.validateRegion region = .ok () ∧ region.bytes = bytes := by
  unfold regionFor
  constructor
  · intro h
    split at h
    · rename_i region found
      obtain ⟨⟨⟩, valid, same⟩ := bind_eq_ok.mp h
      exact ⟨region, found, valid, Except.ok.inj same⟩
    · cases h
  · rintro ⟨region, found, valid, rfl⟩
    rw [found]
    dsimp only
    rw [valid]
    rfl

theorem bytes_of_parsed {whole : List UInt8} (small : whole.length ≤ u64Max)
    {regions : List Region} (parsed : parseFooter whole whole.length = .ok regions)
    {region : Region} (among : region ∈ regions) :
    ∃ offset length, region.bytes = .bounded offset length ∧ offset + length ≤ whole.length ∧
      region.slice whole = (whole.drop offset).take length := by
  obtain ⟨-, valid, -, -, -, tiles⟩ := (parseFooter_eq_ok small).mp parsed
  have bounded := (valid region among).2.1.bounded
  have bounds := (tiles.bounds among).2.2
  cases held : region.bytes with
  | full => exact absurd held bounded
  | bounded offset length =>
    have begins : region.offset = offset := by simp [Region.offset, held]
    have ends : region.stop = offset + length := by simp [Region.stop, held]
    refine ⟨offset, length, rfl, by omega, ?_⟩
    unfold Region.slice
    rw [begins, ends, Nat.add_sub_cancel_left]

/-- A partition is cut its only region, when that is its domain's. -/
theorem sliceRegion_eq_ok {whole : List UInt8} (small : whole.length ≤ u64Max)
    {regions : List Region} (parsed : parseFooter whole whole.length = .ok regions)
    {topic : TopicId} {partition : Nat} {domain : KeyDomain} {blob : List UInt8} :
    sliceRegion whole topic partition domain = .ok blob ↔ ∃ region,
      regions.filter (fun region => decide (region.key = (topic, partition))) = [region] ∧
      domain.validateRegion region = .ok () ∧ blob = region.slice whole := by
  unfold sliceRegion
  rw [parsed, bind_ok, bind_eq_ok]
  constructor
  · rintro ⟨bytes, found, cut⟩
    obtain ⟨region, only, valid, rfl⟩ := regionFor_eq_ok.mp found
    have among : region ∈ regions := List.mem_of_mem_filter (only ▸ List.mem_singleton_self _)
    obtain ⟨offset, length, held, inside, slice⟩ := bytes_of_parsed small parsed among
    rw [held] at cut
    dsimp only at cut
    rw [if_pos inside] at cut
    exact ⟨region, only, valid, slice ▸ (Except.ok.inj cut).symm⟩
  · rintro ⟨region, only, valid, rfl⟩
    have among : region ∈ regions := List.mem_of_mem_filter (only ▸ List.mem_singleton_self _)
    obtain ⟨offset, length, held, inside, slice⟩ := bytes_of_parsed small parsed among
    refine ⟨region.bytes, regionFor_eq_ok.mpr ⟨region, only, valid, rfl⟩, ?_⟩
    rw [held]
    dsimp only
    rw [if_pos inside, slice]

end Oqueue.Broker
