import Mathlib.Data.Nat.Notation

/-!
# How stale a cache may be for a read
-/

namespace Oqueue

def maxMetadataStalenessMs : Nat := 5000

/-- The last commit a session has seen, and whose it was. -/
structure SessionWatermark where
  epoch : Nat
  version : Nat
  deriving DecidableEq, Repr

inductive ReadMode where
  | stale
  | atLeast (want : SessionWatermark)
  | linearizable
  deriving DecidableEq, Repr

inductive RefreshReason where
  | authoritative
  | notYetVisible (wanted : Nat) (applied : Option Nat)
  | pushStreamSilent (silentForMs limitMs : Nat)
  | cacheFromAnotherEpoch (cache current : Nat)
  | cacheFromAnOlderEpoch (watermark cache : Nat)
  | watermarkFromAnotherEpoch (watermark cache : Nat)
  deriving DecidableEq, Repr

structure CacheState where
  epoch : Nat
  applied : Option Nat
  silentForMs : Nat
  deriving DecidableEq, Repr

namespace CacheState

/-- Whether this cache may answer a read. Its epoch comes first for every mode; a newer one on
a watermark comes before silence. -/
def admits (self : CacheState) (mode : ReadMode) (currentEpoch : Nat) :
    Except RefreshReason Unit :=
  if self.epoch ≠ currentEpoch then .error (.cacheFromAnotherEpoch self.epoch currentEpoch)
  else match mode with
    | .linearizable => .error .authoritative
    | .stale =>
      if maxMetadataStalenessMs < self.silentForMs then
        .error (.pushStreamSilent self.silentForMs maxMetadataStalenessMs)
      else .ok ()
    | .atLeast want =>
      if self.epoch < want.epoch then .error (.cacheFromAnOlderEpoch want.epoch self.epoch)
      else if maxMetadataStalenessMs < self.silentForMs then
        .error (.pushStreamSilent self.silentForMs maxMetadataStalenessMs)
      else if want.epoch ≠ self.epoch then
        .error (.watermarkFromAnotherEpoch want.epoch self.epoch)
      else if self.applied.any fun applied => decide (want.version ≤ applied) then .ok ()
      else .error (.notYetVisible want.version self.applied)

theorem admits_linearizable (self : CacheState) :
    self.admits .linearizable self.epoch = .error .authoritative := by
  unfold admits
  rw [if_neg fun other => other rfl]

end CacheState

end Oqueue
