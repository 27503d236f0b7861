import Oqueue.Core.Types

/-!
# Request-rate governance

A token bucket for each class of request, refilled against a policy's ceiling at
the moment of refill. What a refill cannot yet turn into a token is carried in
thousandths of one. An operation that could overflow, or divide by zero, is
checked; the others saturate.
-/

namespace Oqueue

inductive OpClass where
  | write
  | read
  deriving DecidableEq, Repr

structure Duration where
  nanos : Nat
  deriving DecidableEq, Repr

namespace Duration

def asMillis (self : Duration) : Nat := self.nanos / 10 ^ 6

def fromMillis (millis : Nat) : Duration := ⟨millis * 10 ^ 6⟩

def max : Duration := ⟨2 ^ 64 * 10 ^ 9 - 1⟩

end Duration

structure NonZeroU32 where
  get : Nat
  positive : 1 ≤ get
  fits : get ≤ u32Max
  deriving DecidableEq, Repr

def tryFromOr (limit value otherwise : Nat) : Nat := if value ≤ limit then value else otherwise

def checkedSub (a b : Nat) : Option Nat := if b ≤ a then some (a - b) else none

def checkedDiv (a b : Nat) : Option Nat := if b = 0 then none else some (a / b)

def checkedShl64 (a by_ : Nat) : Option Nat :=
  if by_ < 64 then some ((a <<< by_) % 2 ^ 64) else none

def saturatingMul (a b : Nat) : Nat := min (a * b) u64Max

inductive RateLimitPolicy where
  | fixedCeiling (writesPerSec readsPerSec : NonZeroU32)
  | ramping (initialWritesPerSec initialReadsPerSec : NonZeroU32) (doublingPeriod : Duration)
  deriving DecidableEq, Repr

def RateLimitPolicy.ceiling (self : RateLimitPolicy) (opClass : OpClass) (elapsed : Duration) :
    Option Nat :=
  match self with
  | .fixedCeiling writesPerSec readsPerSec =>
    match opClass with
    | .write => some writesPerSec.get
    | .read => some readsPerSec.get
  | .ramping initialWritesPerSec initialReadsPerSec doublingPeriod =>
    let initialPerSec := match opClass with
      | .write => initialWritesPerSec
      | .read => initialReadsPerSec
    if doublingPeriod.nanos = 0 then some u32Max
    else do
      let elapsedMs := tryFromOr u64Max elapsed.asMillis u64Max
      -- A period too long for the width counts as one millisecond.
      let periodMs := tryFromOr u64Max doublingPeriod.asMillis 1
      let doublings ← checkedDiv elapsedMs (max periodMs 1)
      let doublings := min (tryFromOr u32Max doublings u32Max) 32
      let factor ← checkedShl64 1 doublings
      let ramped := min (saturatingMul initialPerSec.get factor) u32Max
      return tryFromOr u32Max ramped u32Max

inductive RateDecision where
  | admitted
  | delay (wait : Duration)
  deriving DecidableEq, Repr

structure Bucket where
  tokens : Nat
  lastRefill : Nat
  carryMillitokens : Nat
  carryCeiling : Nat
  deriving DecidableEq, Repr

namespace Bucket

/-- What has been earned since the last refill, up to a full bucket. -/
def refill (self : Bucket) (now ceiling : Nat) : Bucket :=
  let elapsedMs := now - self.lastRefill
  let carried := if self.carryCeiling = ceiling then self.carryMillitokens else 0
  let millitokens := saturatingAdd carried (saturatingMul elapsedMs ceiling)
  let earned := tryFromOr u32Max (millitokens / 1000) u32Max
  { tokens           := min (min (self.tokens + earned) u32Max) ceiling
    lastRefill       := now
    carryMillitokens := millitokens % 1000
    carryCeiling     := ceiling }

def tryAdmit (self : Bucket) (now ceiling : Nat) : Option (RateDecision × Bucket) :=
  if ceiling = 0 then some (.delay Duration.max, self)
  else
    let refilled := self.refill now ceiling
    if 1 ≤ refilled.tokens then do
      let tokens ← checkedSub refilled.tokens 1
      return (.admitted, { refilled with tokens })
    else
      -- Rounded up, so that the token has accrued by then.
      let waitMs := (1000 + ceiling - 1) / ceiling
      some (.delay (Duration.fromMillis waitMs), refilled)

end Bucket

structure RateGovernor where
  policy : RateLimitPolicy
  createdAt : Nat
  writeBucket : Bucket
  readBucket : Bucket
  deriving DecidableEq, Repr

namespace RateGovernor

/-- A governor that starts full. -/
def new (policy : RateLimitPolicy) (now : Nat) : Option RateGovernor := do
  let initialWrite ← policy.ceiling .write ⟨0⟩
  let initialRead ← policy.ceiling .read ⟨0⟩
  return {
    policy
    createdAt := now
    writeBucket := ⟨initialWrite, now, 0, initialWrite⟩
    readBucket := ⟨initialRead, now, 0, initialRead⟩ }

def bucket (self : RateGovernor) : OpClass → Bucket
  | .write => self.writeBucket
  | .read => self.readBucket

def setBucket (self : RateGovernor) (bucket : Bucket) : OpClass → RateGovernor
  | .write => { self with writeBucket := bucket }
  | .read => { self with readBucket := bucket }

/-- Whether a request may proceed now. A timestamp is not negative, so that the time since the
governor's creation fits a `u64`. -/
def tryAdmit (self : RateGovernor) (opClass : OpClass) (now : Nat) :
    Option (RateDecision × RateGovernor) := do
  let elapsed := Duration.fromMillis (now - self.createdAt)
  let ceiling ← self.policy.ceiling opClass elapsed
  let (decision, bucket) ← (self.bucket opClass).tryAdmit now ceiling
  return (decision, self.setBucket bucket opClass)

end RateGovernor

theorem tryFromOr_limit (limit value : Nat) : tryFromOr limit value limit = min value limit := by
  rw [tryFromOr]
  split <;> omega

namespace RateLimitPolicy

/-- The initial rate of a ramp, and the rate of a fixed ceiling. -/
def initial (self : RateLimitPolicy) (opClass : OpClass) : NonZeroU32 :=
  match self, opClass with
  | .fixedCeiling writesPerSec _, .write => writesPerSec
  | .fixedCeiling _ readsPerSec, .read => readsPerSec
  | .ramping initialWritesPerSec _ _, .write => initialWritesPerSec
  | .ramping _ initialReadsPerSec _, .read => initialReadsPerSec

/-- How often a ramp has doubled by then, as its step function counts. -/
def doublings (elapsed period : Duration) : Nat :=
  min (min elapsed.asMillis u64Max / max (tryFromOr u64Max period.asMillis 1) 1) 32

theorem ceiling_fixed (writes reads : NonZeroU32) (opClass : OpClass) (elapsed : Duration) :
    (fixedCeiling writes reads).ceiling opClass elapsed =
      some ((fixedCeiling writes reads).initial opClass).get := by
  cases opClass <;> rfl

/-- The shift stays within its width, and neither the product nor the narrowing loses anything. -/
theorem ceiling_ramping (writes reads : NonZeroU32) {period : Duration} (opClass : OpClass)
    (elapsed : Duration) (nonzero : period.nanos ≠ 0) :
    (ramping writes reads period).ceiling opClass elapsed =
      some (min (((ramping writes reads period).initial opClass).get *
        2 ^ doublings elapsed period) u32Max) := by
  have initially (initial : NonZeroU32) : (do
      let doublings ← checkedDiv (tryFromOr u64Max elapsed.asMillis u64Max)
        (max (tryFromOr u64Max period.asMillis 1) 1)
      let factor ← checkedShl64 1 (min (tryFromOr u32Max doublings u32Max) 32)
      return tryFromOr u32Max (min (saturatingMul initial.get factor) u32Max) u32Max) =
        some (min (initial.get * 2 ^ doublings elapsed period) u32Max) := by
    have positive : max (tryFromOr u64Max period.asMillis 1) 1 ≠ 0 := by omega
    have small : doublings elapsed period < 64 :=
      Nat.lt_of_le_of_lt (Nat.min_le_right _ 32) (by decide)
    have power : 2 ^ doublings elapsed period ≤ 2 ^ 32 :=
      Nat.pow_le_pow_right (by decide) (Nat.min_le_right _ 32)
    have product : initial.get * 2 ^ doublings elapsed period ≤ u64Max :=
      (Nat.mul_le_mul initial.fits power).trans (by decide)
    have shifted : checkedShl64 1 (doublings elapsed period) =
        some (2 ^ doublings elapsed period) := by
      rw [checkedShl64, if_pos small, Nat.one_shiftLeft, Nat.mod_eq_of_lt]
      exact Nat.lt_of_le_of_lt power (by decide)
    have counted : min (tryFromOr u32Max (min elapsed.asMillis u64Max /
        max (tryFromOr u64Max period.asMillis 1) 1) u32Max) 32 = doublings elapsed period := by
      rw [tryFromOr_limit, Nat.min_assoc]
      rfl
    rw [checkedDiv, if_neg positive, Option.bind_eq_bind, Option.bind_some, tryFromOr_limit u64Max,
      counted, shifted, Option.bind_some, saturatingMul,
      Nat.min_eq_left product, tryFromOr_limit, Nat.min_assoc, Nat.min_self]
    rfl
  unfold ceiling
  dsimp only
  rw [if_neg nonzero]
  cases opClass
  · exact initially writes
  · exact initially reads

theorem ceiling_unramped (writes reads : NonZeroU32) {period : Duration} (opClass : OpClass)
    (elapsed : Duration) (zero : period.nanos = 0) :
    (ramping writes reads period).ceiling opClass elapsed = some u32Max := by
  unfold ceiling
  dsimp only
  rw [if_pos zero]

theorem doublings_mono {elapsed later period : Duration} (le : elapsed.nanos ≤ later.nanos) :
    doublings elapsed period ≤ doublings later period := by
  have millis : elapsed.asMillis ≤ later.asMillis := Nat.div_le_div_right le
  have clamped : min elapsed.asMillis u64Max ≤ min later.asMillis u64Max := by omega
  have divided := Nat.div_le_div_right (c := max (tryFromOr u64Max period.asMillis 1) 1) clamped
  rw [doublings, doublings]
  omega

theorem ceiling_total (self : RateLimitPolicy) (opClass : OpClass) (elapsed : Duration) :
    ∃ ceiling, self.ceiling opClass elapsed = some ceiling ∧ 1 ≤ ceiling ∧ ceiling ≤ u32Max := by
  cases self with
  | fixedCeiling writes reads =>
    exact ⟨_, ceiling_fixed writes reads opClass elapsed, NonZeroU32.positive _, NonZeroU32.fits _⟩
  | ramping writes reads period =>
    by_cases zero : period.nanos = 0
    · exact ⟨_, ceiling_unramped writes reads opClass elapsed zero, by decide, Nat.le_refl _⟩
    · refine ⟨_, ceiling_ramping writes reads opClass elapsed zero, ?_, Nat.min_le_right _ _⟩
      have positive := ((ramping writes reads period).initial opClass).positive
      exact Nat.le_min.mpr ⟨Nat.mul_pos positive (Nat.two_pow_pos _), by decide⟩

theorem ceiling_mono (self : RateLimitPolicy) (opClass : OpClass) {elapsed later : Duration}
    (le : elapsed.nanos ≤ later.nanos) {before after : Nat}
    (hbefore : self.ceiling opClass elapsed = some before)
    (hafter : self.ceiling opClass later = some after) : before ≤ after := by
  cases self with
  | fixedCeiling writes reads =>
    rw [ceiling_fixed] at hbefore hafter
    cases hbefore
    cases hafter
    exact Nat.le_refl _
  | ramping writes reads period =>
    by_cases zero : period.nanos = 0
    · rw [ceiling_unramped _ _ _ _ zero] at hbefore hafter
      cases hbefore
      cases hafter
      exact Nat.le_refl _
    · rw [ceiling_ramping _ _ _ _ zero] at hbefore hafter
      cases hbefore
      cases hafter
      have more : doublings elapsed period ≤ doublings later period := doublings_mono le
      have power := Nat.pow_le_pow_right (by decide : 1 ≤ 2) more
      have product := Nat.mul_le_mul_left ((ramping writes reads period).initial opClass).get power
      omega

/-- A ramp doubles once a period exactly when the period's milliseconds fit a `u64`, or when it
has nowhere to go. -/
theorem ceiling_ramping_iff (writes reads : NonZeroU32) {period : Duration} (opClass : OpClass)
    {millis : Nat} (whole : period.nanos = millis * 10 ^ 6) (nonzero : millis ≠ 0) :
    (∀ elapsed : Duration, elapsed.asMillis ≤ u64Max →
      (ramping writes reads period).ceiling opClass elapsed =
        some (min (((ramping writes reads period).initial opClass).get *
          2 ^ min 32 (elapsed.nanos / period.nanos)) u32Max)) ↔
      millis ≤ u64Max ∨ ((ramping writes reads period).initial opClass).get = u32Max := by
  have running : period.nanos ≠ 0 := by omega
  have asMillis : period.asMillis = millis := by
    rw [Duration.asMillis, whole, Nat.mul_div_cancel millis (by decide)]
  have positive := ((ramping writes reads period).initial opClass).positive
  have fits := ((ramping writes reads period).initial opClass).fits
  constructor
  · intro exactly
    by_cases short : millis ≤ u64Max
    · exact .inl short
    right
    -- One millisecond in, a ramp that slow has doubled already.
    have first := exactly (Duration.fromMillis 1) (by decide)
    have doubled : doublings (Duration.fromMillis 1) period = 1 := by
      rw [doublings, asMillis, tryFromOr, if_neg short]
      rfl
    have still : (Duration.fromMillis 1).nanos / period.nanos = 0 := by
      apply Nat.div_eq_of_lt
      rw [whole]
      change 1 * 10 ^ 6 < _
      have long : u64Max < millis := Nat.lt_of_not_le short
      rw [u64Max] at long
      omega
    rw [ceiling_ramping _ _ _ _ running, doubled, still] at first
    have same := Option.some.inj first
    rw [Nat.pow_one, Nat.min_zero, Nat.pow_zero, Nat.mul_one, Nat.min_eq_left fits] at same
    omega
  · rintro (short | full) elapsed bound
    · have counted : doublings elapsed period = min 32 (elapsed.nanos / period.nanos) := by
        rw [doublings, asMillis, tryFromOr, if_pos short, Nat.min_eq_left bound,
          Nat.max_eq_left (Nat.pos_of_ne_zero nonzero), Duration.asMillis, Nat.div_div_eq_div_mul,
          whole, Nat.mul_comm millis, Nat.min_comm]
      rw [ceiling_ramping _ _ _ _ running, counted]
    · have stays (power : Nat) : min (u32Max * 2 ^ power) u32Max = u32Max :=
        Nat.min_eq_right (Nat.le_mul_of_pos_right _ (Nat.two_pow_pos power))
      rw [ceiling_ramping _ _ _ _ running, full, stays, stays]

end RateLimitPolicy

namespace Bucket

variable {ceiling : Nat}

def held (self : Bucket) : Nat := 1000 * self.tokens + self.carryMillitokens

theorem refill_tokens_le (self : Bucket) (now ceiling : Nat) :
    (self.refill now ceiling).tokens ≤ ceiling := Nat.min_le_right _ _

theorem refill_carry_lt (self : Bucket) (now ceiling : Nat) :
    (self.refill now ceiling).carryMillitokens < 1000 := Nat.mod_lt _ (by decide)

/-- Saturation and a full bucket only lose: no refill gains more than the time is worth. -/
theorem refill_held_le (self : Bucket) (now ceiling : Nat) :
    (self.refill now ceiling).held ≤ self.held + (now - self.lastRefill) * ceiling := by
  have product : saturatingMul (now - self.lastRefill) ceiling ≤ (now - self.lastRefill) * ceiling :=
    Nat.min_le_left _ _
  simp only [held, refill, tryFromOr_limit, saturatingAdd]
  split <;> omega

theorem refill_held_eq {self : Bucket} {now : Nat} (small : ceiling ≤ u32Max)
    (same : self.carryCeiling = ceiling) (carry : self.carryMillitokens < 1000)
    (empty : self.tokens = 0) (soon : now ≤ self.lastRefill + 1000) :
    (self.refill now ceiling).held =
      self.carryMillitokens + (now - self.lastRefill) * ceiling := by
  have product : (now - self.lastRefill) * ceiling ≤ 1000 * ceiling :=
    Nat.mul_le_mul_right ceiling (by omega)
  have exactly : saturatingMul (now - self.lastRefill) ceiling =
      (now - self.lastRefill) * ceiling := by
    apply Nat.min_eq_left
    rw [u32Max] at small
    rw [u64Max]
    omega
  rw [u32Max] at small
  simp only [held, refill, if_pos same, exactly, empty, tryFromOr_limit, saturatingAdd, u32Max,
    u64Max]
  omega

theorem refill_full {self : Bucket} {now : Nat} (small : ceiling ≤ u32Max)
    (same : self.carryCeiling = ceiling) (carry : self.carryMillitokens = 0)
    (full : self.tokens = ceiling) (soon : now ≤ self.lastRefill + 1000) :
    (self.refill now ceiling).tokens = ceiling ∧
      (self.refill now ceiling).carryMillitokens = (now - self.lastRefill) * ceiling % 1000 := by
  have product : (now - self.lastRefill) * ceiling ≤ 1000 * ceiling :=
    Nat.mul_le_mul_right ceiling (by omega)
  have exactly : saturatingMul (now - self.lastRefill) ceiling =
      (now - self.lastRefill) * ceiling := by
    apply Nat.min_eq_left
    rw [u32Max] at small
    rw [u64Max]
    omega
  rw [u32Max] at small
  simp only [refill, if_pos same, exactly, carry, full, tryFromOr_limit, saturatingAdd, u32Max,
    u64Max]
  omega

theorem refill_again (self : Bucket) {now tokens : Nat} (small : ceiling ≤ u32Max)
    (le : tokens ≤ ceiling) :
    ({ self.refill now ceiling with tokens } : Bucket).refill now ceiling =
      { self.refill now ceiling with tokens } := by
  have carry := refill_carry_lt self now ceiling
  have millitokens : saturatingAdd (self.refill now ceiling).carryMillitokens
      (saturatingMul (now - now) ceiling) = (self.refill now ceiling).carryMillitokens := by
    rw [Nat.sub_self, saturatingMul, Nat.zero_mul, Nat.zero_min, saturatingAdd, u64Max]
    omega
  change (⟨min (min (tokens + tryFromOr u32Max (saturatingAdd (if ceiling = ceiling then
    (self.refill now ceiling).carryMillitokens else 0) (saturatingMul (now - now) ceiling) / 1000)
      u32Max) u32Max) ceiling, now, saturatingAdd (if ceiling = ceiling then
        (self.refill now ceiling).carryMillitokens else 0) (saturatingMul (now - now) ceiling) % 1000,
          ceiling⟩ : Bucket) = _
  rw [if_pos rfl, millitokens, Nat.div_eq_of_lt carry, Nat.mod_eq_of_lt carry, tryFromOr_limit,
    Nat.zero_min, Nat.add_zero, Nat.min_eq_left (le.trans small), Nat.min_eq_left le]
  rfl

theorem refill_ready {self : Bucket} {now : Nat} (positive : 1 ≤ ceiling)
    (worth : 1000 ≤ (now - self.lastRefill) * ceiling) :
    1 ≤ (self.refill now ceiling).tokens := by
  have product : 1000 ≤ saturatingMul (now - self.lastRefill) ceiling :=
    Nat.le_min.mpr ⟨worth, by decide⟩
  simp only [refill, tryFromOr_limit, saturatingAdd, u32Max, u64Max]
  omega

theorem admit_cases (self : Bucket) (now : Nat) (positive : 1 ≤ ceiling) :
    (1 ≤ (self.refill now ceiling).tokens ∧ self.tryAdmit now ceiling = some (.admitted,
        { self.refill now ceiling with tokens := (self.refill now ceiling).tokens - 1 })) ∨
      ((self.refill now ceiling).tokens = 0 ∧ self.tryAdmit now ceiling =
        some (.delay (Duration.fromMillis ((1000 + ceiling - 1) / ceiling)),
          self.refill now ceiling)) := by
  unfold tryAdmit
  rw [if_neg (Nat.ne_of_gt positive)]
  dsimp only
  by_cases some_ : 1 ≤ (self.refill now ceiling).tokens
  · refine .inl ⟨some_, ?_⟩
    rw [if_pos some_, checkedSub, if_pos some_]
    rfl
  · refine .inr ⟨by omega, ?_⟩
    rw [if_neg some_]

theorem wait_worth (positive : 1 ≤ ceiling) :
    1000 ≤ (1000 + ceiling - 1) / ceiling * ceiling := by
  have divided := Nat.div_add_mod' (1000 + ceiling - 1) ceiling
  have below := Nat.mod_lt (1000 + ceiling - 1) positive
  omega

end Bucket

end Oqueue
