import Oqueue.Codec.ErrorCodes
import Oqueue.Core.Types
import Oqueue.Library.Rotation

/-!
# Minting producer ids

An id is folded out of the process id, the clock and a counter by exclusive or,
and a fold of that kind lets a difference of the clock cancel one of the
counter. Which differences do is said exactly.
-/

namespace Oqueue.Broker

/-- What an `InitProducerId` is decided on. -/
structure InitProducerIdRequest where
  transactionalId : Option String
  deriving DecidableEq, Repr

structure InitProducerIdResponse where
  errorCode : Int
  producerId : Int
  producerEpoch : Int
  deriving DecidableEq, Repr

/-- The entropy fold and the sign bit's mask. -/
def fold (pid stamp nth : BitVec 64) : Int :=
  ((pid ^^^ stamp.rotateLeft 19 ^^^ nth.rotateLeft 41) &&& 0x7FFFFFFFFFFFFFFF#64).toInt

def stampOf (nanos : Int) : BitVec 64 := .ofNat 64 (min nanos.toNat u64Max)

/-- A process, and how many ids it has minted. -/
structure Minter where
  pid : BitVec 32
  minted : BitVec 64 := 0

namespace Minter

def mintProducerId (self : Minter) (nanos : Int) : Nat × Minter :=
  let id := fold (self.pid.setWidth 64) (stampOf nanos) self.minted
  ((ProducerId.new id).toOption.getD 0, { self with minted := self.minted + 1 })

/-- One call, and what the clock reads when it mints. -/
def handle (self : Minter) (request : InitProducerIdRequest) (nanos : Int) :
    InitProducerIdResponse × Minter :=
  if request.transactionalId.isSome then (⟨ErrorCode.invalidRequest, -1, -1⟩, self)
  else
    let (id, self) := self.mintProducerId nanos
    (⟨ErrorCode.none, id, 0⟩, self)

/-- A process's calls in the order they mint. -/
def serve : Minter → List (InitProducerIdRequest × Int) → List InitProducerIdResponse
  | _, [] => []
  | self, (request, nanos) :: calls =>
    let (response, self) := self.handle request nanos
    response :: self.serve calls

end Minter

/-- The ids a process answers, from its first call on. -/
def mintedIds (pid : BitVec 32) (calls : List (InitProducerIdRequest × Int)) : List Int :=
  ((Minter.serve ⟨pid, 0⟩ calls).filter fun response =>
    response.errorCode = ErrorCode.none).map InitProducerIdResponse.producerId

/-- The clock's readings of the calls that mint. -/
def stamps (calls : List (InitProducerIdRequest × Int)) : List (BitVec 64) :=
  (calls.filter fun call => call.1.transactionalId.isNone).map fun call => stampOf call.2

/-- The clock did not move between two calls in the one way, sign bit aside, in which it undoes
their counters. -/
def Apart (first second : BitVec 64 × Nat) : Prop :=
  let turned := (BitVec.ofNat 64 first.2 ^^^ BitVec.ofNat 64 second.2).rotateLeft 22
  first.1 ^^^ second.1 ≠ turned ∧ first.1 ^^^ second.1 ≠ turned ^^^ 0x100000000000#64

theorem fold_nonneg (pid stamp nth : BitVec 64) : 0 ≤ fold pid stamp nth := by
  apply BitVec.toInt_nonneg_of_msb_false
  rw [BitVec.msb_and]
  exact Bool.and_false _

theorem masked_eq_zero {x : BitVec 64} :
    x &&& 0x7FFFFFFFFFFFFFFF#64 = 0#64 ↔ x = 0#64 ∨ x = 0x8000000000000000#64 := by
  constructor
  · intro masked
    have low : x.toNat % 2 ^ 63 = 0 := by
      rw [← Nat.and_two_pow_sub_one_eq_mod]
      exact congrArg BitVec.toNat masked
    have bound := x.isLt
    have either : x.toNat = 0 ∨ x.toNat = 2 ^ 63 := by omega
    exact either.imp BitVec.eq_of_toNat_eq BitVec.eq_of_toNat_eq
  · rintro (rfl | rfl) <;> decide

theorem xor_cancel (p a b a' b' : BitVec 64) :
    (p ^^^ a ^^^ b) ^^^ (p ^^^ a' ^^^ b') = (a ^^^ a') ^^^ (b ^^^ b') := by
  calc (p ^^^ a ^^^ b) ^^^ (p ^^^ a' ^^^ b')
      = (p ^^^ p) ^^^ ((a ^^^ a') ^^^ (b ^^^ b')) := by ac_rfl
    _ = (a ^^^ a') ^^^ (b ^^^ b') := by rw [BitVec.xor_self, BitVec.zero_xor]

theorem fold_eq_iff {pid s s' n n' : BitVec 64} : fold pid s n = fold pid s' n' ↔
    s ^^^ s' = (n ^^^ n').rotateLeft 22 ∨
      s ^^^ s' = (n ^^^ n').rotateLeft 22 ^^^ 0x100000000000#64 := by
  have turns : (n ^^^ n').rotateLeft 41 = ((n ^^^ n').rotateLeft 22).rotateLeft 19 :=
    (BitVec.rotateLeft_rotateLeft _ 22 19).symm
  have sign : 0x8000000000000000#64 = (0x100000000000#64).rotateLeft 19 := by decide
  have apart : (pid ^^^ s.rotateLeft 19 ^^^ n.rotateLeft 41) ^^^
      (pid ^^^ s'.rotateLeft 19 ^^^ n'.rotateLeft 41) =
      (s ^^^ s').rotateLeft 19 ^^^ (n ^^^ n').rotateLeft 41 := by
    rw [BitVec.rotateLeft_xor, BitVec.rotateLeft_xor]
    exact xor_cancel _ _ _ _ _
  unfold fold
  rw [BitVec.toInt_inj, BitVec.and_eq_and_iff, apart, masked_eq_zero]
  apply or_congr
  · rw [BitVec.xor_eq_iff, BitVec.zero_xor, turns, BitVec.rotateLeft_inj (by decide)]
  · rw [BitVec.xor_eq_iff, turns, sign, ← BitVec.rotateLeft_xor,
      BitVec.rotateLeft_inj (by decide), BitVec.xor_comm 0x100000000000#64]

theorem mintProducerId_eq (minter : Minter) (nanos : Int) :
    ((minter.mintProducerId nanos).1 : Int) =
      fold (minter.pid.setWidth 64) (stampOf nanos) minter.minted := by
  have nonneg := fold_nonneg (minter.pid.setWidth 64) (stampOf nanos) minter.minted
  unfold Minter.mintProducerId ProducerId.new
  dsimp only
  rw [if_neg (Int.not_lt.mpr nonneg)]
  exact Int.toNat_of_nonneg nonneg

theorem serve_ids (pid : BitVec 32) (calls : List (InitProducerIdRequest × Int)) (minted : Nat) :
    ((Minter.serve ⟨pid, .ofNat 64 minted⟩ calls).filter fun response =>
      response.errorCode = ErrorCode.none).map InitProducerIdResponse.producerId =
    ((stamps calls).zipIdx minted).map fun item =>
      fold (pid.setWidth 64) item.1 (.ofNat 64 item.2) := by
  induction calls generalizing minted with
  | nil => rfl
  | cons call calls ih =>
    obtain ⟨⟨transactionalId⟩, nanos⟩ := call
    cases transactionalId with
    | some id => exact ih minted
    | none =>
      have next := ih (minted + 1)
      rw [BitVec.ofNat_add] at next
      change (((Minter.mintProducerId ⟨pid, .ofNat 64 minted⟩ nanos).1 : Nat) : Int) :: _ = _ :: _
      rw [mintProducerId_eq]
      exact congrArg _ next

theorem mintedIds_eq (pid : BitVec 32) (calls : List (InitProducerIdRequest × Int)) :
    mintedIds pid calls = (stamps calls).zipIdx.map fun item =>
      fold (pid.setWidth 64) item.1 (.ofNat 64 item.2) :=
  serve_ids pid calls 0

/-- The ids of one process are distinct just where its clock and its count never cancel. -/
theorem minted_ids_distinct_iff (pid : BitVec 32) (calls : List (InitProducerIdRequest × Int)) :
    ((∀ id ∈ mintedIds pid calls, 0 ≤ id) ∧ (mintedIds pid calls).Nodup) ↔
      (stamps calls).zipIdx.Pairwise Apart := by
  rw [mintedIds_eq]
  constructor
  · intro ⟨_, distinct⟩
    refine (List.pairwise_map.mp distinct).imp fun differ => ?_
    exact not_or.mp fun same => differ (fold_eq_iff.mpr same)
  · intro apart
    constructor
    · intro id member
      obtain ⟨item, -, rfl⟩ := List.mem_map.mp member
      exact fold_nonneg _ _ _
    · refine List.pairwise_map.mpr (apart.imp fun differ => ?_)
      exact fun same => absurd (fold_eq_iff.mp same) (not_or.mpr differ)

/-- Two calls four milliseconds and some microseconds apart are answered one id. -/
theorem minted_ids_collide :
    let calls : List (InitProducerIdRequest × Int) :=
      [(⟨none⟩, 1700000000000000000), (⟨none⟩, 1700000000004194304)]
    calls.Pairwise (fun first second => first.2 ≤ second.2) ∧
      ∃ id, mintedIds 4242 calls = [id, id] :=
  ⟨by decide, _, rfl⟩

end Oqueue.Broker
