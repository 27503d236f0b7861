import Oqueue.Core.RateGovernor

/-!
# What a rate governor admits

Over any calls at times that do not decrease: how many a window of time can
admit, how many a caller gets that never leaves a token, and when a call that
was told to wait is admitted.
-/

namespace Oqueue

def Bucket.Fits (self : Bucket) : Prop :=
  self.tokens ≤ u32Max ∧ self.carryMillitokens ≤ u64Max ∧ self.carryCeiling ≤ u32Max

namespace RateGovernor

@[simp] theorem bucket_setBucket (self : RateGovernor) (bucket : Bucket) (opClass : OpClass) :
    (self.setBucket bucket opClass).bucket opClass = bucket := by
  cases opClass <;> rfl

theorem bucket_setBucket_of_ne (self : RateGovernor) (bucket : Bucket) {opClass other : OpClass}
    (ne : other ≠ opClass) : (self.setBucket bucket opClass).bucket other = self.bucket other := by
  cases opClass <;> cases other <;> first | rfl | exact absurd rfl ne

@[simp] theorem setBucket_setBucket (self : RateGovernor) (bucket next : Bucket)
    (opClass : OpClass) :
    (self.setBucket bucket opClass).setBucket next opClass = self.setBucket next opClass := by
  cases opClass <;> rfl

@[simp] theorem policy_setBucket (self : RateGovernor) (bucket : Bucket) (opClass : OpClass) :
    (self.setBucket bucket opClass).policy = self.policy := by
  cases opClass <;> rfl

@[simp] theorem createdAt_setBucket (self : RateGovernor) (bucket : Bucket) (opClass : OpClass) :
    (self.setBucket bucket opClass).createdAt = self.createdAt := by
  cases opClass <;> rfl

def ceilingAt (self : RateGovernor) (opClass : OpClass) (now : Nat) : Option Nat :=
  self.policy.ceiling opClass (Duration.fromMillis (now - self.createdAt))

theorem admit_cases (self : RateGovernor) (opClass : OpClass) (now : Nat) :
    ∃ ceiling decision bucket, self.ceilingAt opClass now = some ceiling ∧ 1 ≤ ceiling ∧
      ceiling ≤ u32Max ∧ (self.bucket opClass).tryAdmit now ceiling = some (decision, bucket) ∧
      self.tryAdmit opClass now = some (decision, self.setBucket bucket opClass) := by
  obtain ⟨ceiling, sets, positive, small⟩ := self.policy.ceiling_total opClass
    (Duration.fromMillis (now - self.createdAt))
  have call (decision : RateDecision) (bucket : Bucket)
      (admits : (self.bucket opClass).tryAdmit now ceiling = some (decision, bucket)) :
      self.tryAdmit opClass now = some (decision, self.setBucket bucket opClass) := by
    simp only [tryAdmit, sets, admits, Option.bind_eq_bind, Option.bind_some]
    rfl
  obtain ⟨-, admits⟩ | ⟨-, admits⟩ := (self.bucket opClass).admit_cases now positive
  · exact ⟨ceiling, _, _, sets, positive, small, admits, call _ _ admits⟩
  · exact ⟨ceiling, _, _, sets, positive, small, admits, call _ _ admits⟩

def run : RateGovernor → List (OpClass × Nat) → Option (List RateDecision × RateGovernor)
  | self, [] => some ([], self)
  | self, (opClass, now) :: calls => do
    let (decision, after) ← self.tryAdmit opClass now
    let (decisions, last) ← run after calls
    return (decision :: decisions, last)

theorem run_cons {self last : RateGovernor} {opClass : OpClass} {now : Nat}
    {calls : List (OpClass × Nat)} {decisions : List RateDecision} :
    self.run ((opClass, now) :: calls) = some (decisions, last) ↔
      ∃ decision after rest, self.tryAdmit opClass now = some (decision, after) ∧
        after.run calls = some (rest, last) ∧ decisions = decision :: rest := by
  rw [run, Option.bind_eq_bind, Option.bind_eq_some_iff]
  constructor
  · rintro ⟨⟨decision, after⟩, admits, ran⟩
    obtain ⟨⟨rest, last'⟩, ran, same⟩ := Option.bind_eq_some_iff.mp ran
    cases same
    exact ⟨decision, after, rest, admits, ran, rfl⟩
  · rintro ⟨decision, after, rest, admits, ran, rfl⟩
    exact ⟨(decision, after), admits, Option.bind_eq_some_iff.mpr ⟨(rest, last), ran, rfl⟩⟩

def Fits (self : RateGovernor) : Prop := ∀ opClass, Bucket.Fits (self.bucket opClass)

theorem fits_new (policy : RateLimitPolicy) (now : Nat) :
    ∃ self, new policy now = some self ∧ self.Fits := by
  obtain ⟨write, writes, -, writeFits⟩ := policy.ceiling_total .write ⟨0⟩
  obtain ⟨read, reads, -, readFits⟩ := policy.ceiling_total .read ⟨0⟩
  refine ⟨⟨policy, now, ⟨write, now, 0, write⟩, ⟨read, now, 0, read⟩⟩, ?_, ?_⟩
  · rw [new, writes, reads]
    rfl
  · intro opClass
    cases opClass
    · exact ⟨writeFits, Nat.zero_le _, writeFits⟩
    · exact ⟨readFits, Nat.zero_le _, readFits⟩

theorem fits_admit {self : RateGovernor} (fits : self.Fits) (opClass : OpClass) (now : Nat) :
    ∃ decision after, self.tryAdmit opClass now = some (decision, after) ∧ after.Fits := by
  obtain ⟨ceiling, decision, bucket, -, positive, small, admits, called⟩ :=
    self.admit_cases opClass now
  refine ⟨decision, _, called, ?_⟩
  intro other
  by_cases ne : other = opClass
  · subst ne
    rw [bucket_setBucket]
    have tokens := (self.bucket other).refill_tokens_le now ceiling
    have carry := (self.bucket other).refill_carry_lt now ceiling
    have room : 1000 ≤ u64Max := by decide
    obtain ⟨-, same⟩ | ⟨-, same⟩ := (self.bucket other).admit_cases now positive
    · cases admits.symm.trans same
      exact ⟨(Nat.sub_le _ _).trans (tokens.trans small), carry.le.trans room, small⟩
    · cases admits.symm.trans same
      exact ⟨tokens.trans small, carry.le.trans room, small⟩
  · rw [bucket_setBucket_of_ne _ _ ne]
    exact fits other

theorem fits_run {self : RateGovernor} (fits : self.Fits) (calls : List (OpClass × Nat)) :
    ∃ decisions last, self.run calls = some (decisions, last) ∧ last.Fits := by
  induction calls generalizing self with
  | nil => exact ⟨[], self, rfl, fits⟩
  | cons call calls ih =>
    obtain ⟨opClass, now⟩ := call
    obtain ⟨decision, after, admits, fits'⟩ := fits_admit fits opClass now
    obtain ⟨decisions, last, ran, fitsLast⟩ := ih fits'
    exact ⟨decision :: decisions, last, run_cons.mpr ⟨_, _, _, admits, ran, rfl⟩, fitsLast⟩

/-- How many calls of a class a run admits from one moment to another. -/
def admitted (opClass : OpClass) (low high : Nat) (calls : List (OpClass × Nat))
    (decisions : List RateDecision) : Nat :=
  (calls.zip decisions).countP fun item =>
    item.1.1 = opClass ∧ low ≤ item.1.2 ∧ item.1.2 ≤ high ∧ item.2 = .admitted

def timesOf (opClass : OpClass) (calls : List (OpClass × Nat)) : List Nat :=
  (calls.filter (·.1 = opClass)).map Prod.snd

end RateGovernor

namespace Bucket

variable {ceiling : Nat}

/-- How many of one bucket's calls are admitted from one moment to another. -/
def admitted (ceiling low high : Nat) : Bucket → List Nat → Nat
  | _, [] => 0
  | self, now :: times =>
    match self.tryAdmit now ceiling with
    | none => 0
    | some (decision, after) =>
      (if low ≤ now ∧ now ≤ high ∧ decision = .admitted then 1 else 0) +
        admitted ceiling low high after times

theorem admitted_cons (positive : 1 ≤ ceiling) (low high : Nat) (self : Bucket) (now : Nat)
    (times : List Nat) : ∃ after won, after.lastRefill = now ∧
      1000 * won + after.held = (self.refill now ceiling).held ∧
      admitted ceiling low high self (now :: times) =
        (if low ≤ now ∧ now ≤ high then won else 0) + admitted ceiling low high after times := by
  obtain ⟨there, admits⟩ | ⟨-, admits⟩ := self.admit_cases now positive
  · refine ⟨{ self.refill now ceiling with tokens := (self.refill now ceiling).tokens - 1 }, 1, rfl,
      ?_, ?_⟩
    · simp only [held]
      omega
    · rw [admitted, admits]
      simp only [and_true]
  · refine ⟨self.refill now ceiling, 0, rfl, Nat.zero_add _, ?_⟩
    rw [admitted, admits]
    simp

theorem admitted_past (positive : 1 ≤ ceiling) {low high : Nat} {self : Bucket} {times : List Nat}
    (past : ∀ now ∈ times, high < now) : admitted ceiling low high self times = 0 := by
  induction times generalizing self with
  | nil => rfl
  | cons now times ih =>
    obtain ⟨after, won, -, -, counts⟩ := admitted_cons positive low high self now times
    have late : ¬ (low ≤ now ∧ now ≤ high) :=
      fun inside => Nat.not_lt.mpr inside.2 (past now List.mem_cons_self)
    rw [counts, if_neg late, ih fun later mem => past later (List.mem_cons_of_mem now mem)]

/-- A bucket admits what it holds and what it earns until the window closes. -/
theorem admitted_within (positive : 1 ≤ ceiling) (low : Nat) {high : Nat} {self : Bucket}
    {times : List Nat} (sorted : times.Pairwise (· ≤ ·)) (since : ∀ now ∈ times, self.lastRefill ≤ now) :
    1000 * admitted ceiling low high self times ≤
      self.held + (high - self.lastRefill) * ceiling := by
  induction times generalizing self with
  | nil => exact Nat.zero_le _
  | cons now times ih =>
    obtain ⟨later, sorted⟩ := List.pairwise_cons.mp sorted
    obtain ⟨after, won, refilled, paid, counts⟩ := admitted_cons positive low high self now times
    by_cases inside : now ≤ high
    · have rest := @ih after sorted (by rwa [refilled])
      have gained := self.refill_held_le now ceiling
      have elapsed := since now List.mem_cons_self
      have split : (high - self.lastRefill) * ceiling =
          (now - self.lastRefill) * ceiling + (high - now) * ceiling := by
        rw [← Nat.add_mul]
        congr 1
        omega
      rw [refilled] at rest
      rw [counts, split]
      split <;> omega
    · have past : ∀ other ∈ now :: times, high < other := by
        intro other mem
        rcases List.mem_cons.mp mem with rfl | mem
        · exact Nat.lt_of_not_le inside
        · exact Nat.lt_of_lt_of_le (Nat.lt_of_not_le inside) (later other mem)
      rw [admitted_past positive past]
      exact Nat.zero_le _

/-- Whatever a bucket held before, a window admits a full bucket and what it earns. -/
theorem admitted_window (positive : 1 ≤ ceiling) {low high : Nat} {self : Bucket}
    {times : List Nat} (sorted : times.Pairwise (· ≤ ·)) :
    1000 * admitted ceiling low high self times ≤ 1000 * ceiling + 999 + (high - low) * ceiling := by
  induction times generalizing self with
  | nil => exact Nat.zero_le _
  | cons now times ih =>
    obtain ⟨later, sorted⟩ := List.pairwise_cons.mp sorted
    obtain ⟨after, won, refilled, paid, counts⟩ := admitted_cons positive low high self now times
    by_cases inside : low ≤ now ∧ now ≤ high
    · have rest := @admitted_within ceiling positive low high after times sorted (by rwa [refilled])
      have full : (self.refill now ceiling).held ≤ 1000 * ceiling + 999 := by
        have tokens := self.refill_tokens_le now ceiling
        have carry := self.refill_carry_lt now ceiling
        rw [held]
        omega
      have shorter : (high - now) * ceiling ≤ (high - low) * ceiling :=
        Nat.mul_le_mul_right ceiling (by omega)
      rw [refilled] at rest
      rw [counts, if_pos inside]
      omega
    · rw [counts, if_neg inside, Nat.zero_add]
      exact ih sorted

end Bucket

namespace RateGovernor

/-- What a run admits of a class is what that class's bucket admits. -/
theorem admitted_run {opClass : OpClass} {ceiling : Nat} (low high : Nat) {self last : RateGovernor}
    {calls : List (OpClass × Nat)} {decisions : List RateDecision}
    (fixed : ∀ elapsed, self.policy.ceiling opClass elapsed = some ceiling)
    (ran : self.run calls = some (decisions, last)) :
    admitted opClass low high calls decisions =
      (self.bucket opClass).admitted ceiling low high (timesOf opClass calls) := by
  induction calls generalizing self decisions with
  | nil =>
    cases ran
    rfl
  | cons call calls ih =>
    obtain ⟨other, now⟩ := call
    obtain ⟨decision, after, rest, admits, ran, rfl⟩ := run_cons.mp ran
    obtain ⟨ceiling', decision', bucket, sets, -, -, spends, called⟩ := self.admit_cases other now
    cases admits.symm.trans called
    have same := ih (by rwa [policy_setBucket]) ran
    rw [admitted, List.zip_cons_cons, List.countP_cons]
    by_cases mine : other = opClass
    · subst mine
      cases sets.symm.trans (fixed _)
      rw [bucket_setBucket] at same
      have times : timesOf other ((other, now) :: calls) = now :: timesOf other calls := by
        simp [timesOf]
      rw [times, Bucket.admitted, spends]
      dsimp only
      rw [← same, Nat.add_comm]
      simp only [admitted, decide_eq_true_eq, true_and]
    · rw [bucket_setBucket_of_ne _ _ (Ne.symm mine)] at same
      have times : timesOf opClass ((other, now) :: calls) = timesOf opClass calls := by
        simp [timesOf, mine]
      rw [times, ← same, if_neg (by simp [mine])]
      rfl

/-- Calls at one moment until one is refused: how many were admitted, and what is left. -/
inductive UntilRefused (opClass : OpClass) (now : Nat) :
    RateGovernor → Nat → RateGovernor → Prop
  | refused {self wait after} : self.tryAdmit opClass now = some (.delay wait, after) →
      UntilRefused opClass now self 0 after
  | admitted {self mid count after} : self.tryAdmit opClass now = some (.admitted, mid) →
      UntilRefused opClass now mid count after → UntilRefused opClass now self (count + 1) after

/-- Such calls at one moment after another. -/
inductive Drained (opClass : OpClass) : RateGovernor → List Nat → Nat → RateGovernor → Prop
  | nil {self} : Drained opClass self [] 0 self
  | cons {self mid after now times count total} : UntilRefused opClass now self count mid →
      Drained opClass mid times total after →
      Drained opClass self (now :: times) (count + total) after

variable {opClass : OpClass} {ceiling : Nat}

theorem admit_fixed {self : RateGovernor} (now : Nat)
    (fixed : ∀ elapsed, self.policy.ceiling opClass elapsed = some ceiling) :
    (1 ≤ ((self.bucket opClass).refill now ceiling).tokens ∧ self.tryAdmit opClass now =
        some (.admitted, self.setBucket { (self.bucket opClass).refill now ceiling with
          tokens := ((self.bucket opClass).refill now ceiling).tokens - 1 } opClass)) ∨
      (((self.bucket opClass).refill now ceiling).tokens = 0 ∧ ∃ wait, self.tryAdmit opClass now =
        some (.delay wait, self.setBucket ((self.bucket opClass).refill now ceiling) opClass)) := by
  obtain ⟨ceiling', decision, bucket, sets, positive, -, admits, called⟩ :=
    self.admit_cases opClass now
  cases sets.symm.trans (fixed _)
  obtain ⟨there, same⟩ | ⟨none_, same⟩ := (self.bucket opClass).admit_cases now positive
  · cases admits.symm.trans same
    exact .inl ⟨there, called⟩
  · cases admits.symm.trans same
    exact .inr ⟨none_, _, called⟩

/-- Such a caller gets what a refill leaves, and leaves only thousandths. -/
theorem untilRefused_eq {self after : RateGovernor} {now count : Nat}
    (fixed : ∀ elapsed, self.policy.ceiling opClass elapsed = some ceiling)
    (small : ceiling ≤ u32Max) (calls : UntilRefused opClass now self count after) :
    count = ((self.bucket opClass).refill now ceiling).tokens ∧ after =
      self.setBucket { (self.bucket opClass).refill now ceiling with tokens := 0 } opClass := by
  induction calls with
  | @refused self wait after refused =>
    obtain ⟨there, same⟩ | ⟨empty, wait, same⟩ := admit_fixed now fixed
    · cases refused.symm.trans same
    · cases refused.symm.trans same
      refine ⟨empty.symm, ?_⟩
      congr 1
      rw [← empty]
  | @admitted self mid count after admits _ ih =>
    obtain ⟨there, same⟩ | ⟨empty, wait, same⟩ := admit_fixed now fixed
    · cases admits.symm.trans same
      have full := (self.bucket opClass).refill_tokens_le now ceiling
      obtain ⟨counts, leaves⟩ := ih (by rwa [policy_setBucket])
      rw [bucket_setBucket, Bucket.refill_again _ small (by omega)] at counts leaves
      rw [setBucket_setBucket] at leaves
      dsimp only at counts
      exact ⟨by omega, leaves⟩
    · cases admits.symm.trans same

theorem untilRefused_ends {self : RateGovernor} (now : Nat)
    (fixed : ∀ elapsed, self.policy.ceiling opClass elapsed = some ceiling)
    (small : ceiling ≤ u32Max) : ∃ count after, UntilRefused opClass now self count after := by
  induction left : ((self.bucket opClass).refill now ceiling).tokens generalizing self with
  | zero =>
    obtain ⟨there, -⟩ | ⟨-, wait, refused⟩ := admit_fixed now fixed
    · rw [left] at there
      cases there
    · exact ⟨0, _, .refused refused⟩
  | succ tokens ih =>
    obtain ⟨-, admits⟩ | ⟨empty, -⟩ := admit_fixed now fixed
    · have full := (self.bucket opClass).refill_tokens_le now ceiling
      have fewer : (((self.setBucket { (self.bucket opClass).refill now ceiling with
          tokens := ((self.bucket opClass).refill now ceiling).tokens - 1 } opClass).bucket
            opClass).refill now ceiling).tokens = tokens := by
        rw [bucket_setBucket, Bucket.refill_again _ small (by omega)]
        dsimp only
        omega
      obtain ⟨count, after, calls⟩ := ih (by rwa [policy_setBucket]) fewer
      exact ⟨count + 1, after, .admitted admits calls⟩
    · rw [left] at empty
      cases empty

theorem drained_ends {self : RateGovernor} (times : List Nat)
    (fixed : ∀ elapsed, self.policy.ceiling opClass elapsed = some ceiling)
    (small : ceiling ≤ u32Max) : ∃ total after, Drained opClass self times total after := by
  induction times generalizing self with
  | nil => exact ⟨0, self, .nil⟩
  | cons now times ih =>
    obtain ⟨count, mid, calls⟩ := untilRefused_ends now fixed small
    obtain ⟨-, leaves⟩ := untilRefused_eq fixed small calls
    have fixed' : ∀ elapsed, mid.policy.ceiling opClass elapsed = some ceiling := by
      rw [leaves, policy_setBucket]
      exact fixed
    obtain ⟨total, after, rest⟩ := ih fixed'
    exact ⟨_, after, .cons calls rest⟩

def Gapless : List Nat → Prop := List.IsChain fun now next => now ≤ next ∧ next ≤ now + 1000

theorem Gapless.le_getLast {now : Nat} {times : List Nat} (gapless : Gapless (now :: times)) :
    now ≤ (now :: times).getLast (List.cons_ne_nil now times) := by
  induction times generalizing now with
  | nil => exact Nat.le_refl now
  | cons next times ih =>
    obtain ⟨near, gapless⟩ := List.isChain_cons_cons.mp gapless
    rw [List.getLast_cons (List.cons_ne_nil next times)]
    exact near.1.trans (ih gapless)

structure Emptied (bucket : Bucket) (ceiling last : Nat) : Prop where
  lastRefill : bucket.lastRefill = last
  ceiling : bucket.carryCeiling = ceiling
  tokens : bucket.tokens = 0
  carry : bucket.carryMillitokens < 1000

/-- From an empty bucket such a caller gets all that the time earns, but for thousandths. -/
theorem drained_exact {self after : RateGovernor} {last total : Nat} {times : List Nat}
    (fixed : ∀ elapsed, self.policy.ceiling opClass elapsed = some ceiling)
    (small : ceiling ≤ u32Max) (emptied : Emptied (self.bucket opClass) ceiling last)
    (gapless : Gapless (last :: times)) (drained : Drained opClass self times total after) :
    ∃ left, left < 1000 ∧ 1000 * total + left = (self.bucket opClass).carryMillitokens +
      ((last :: times).getLast (List.cons_ne_nil last times) - last) * ceiling := by
  induction drained generalizing last with
  | nil =>
    refine ⟨_, emptied.carry, ?_⟩
    rw [List.getLast_singleton, Nat.sub_self, Nat.zero_mul, Nat.mul_zero, Nat.zero_add, Nat.add_zero]
  | @cons self mid after now times count total calls _ ih =>
    obtain ⟨near, gapless⟩ := List.isChain_cons_cons.mp gapless
    obtain ⟨counts, leaves⟩ := untilRefused_eq fixed small calls
    have lastRefill := emptied.lastRefill
    have earned := @Bucket.refill_held_eq ceiling (self.bucket opClass) now small emptied.ceiling
      emptied.carry emptied.tokens (by omega)
    have fixed' : ∀ elapsed, mid.policy.ceiling opClass elapsed = some ceiling := by
      rw [leaves, policy_setBucket]
      exact fixed
    have bucket : mid.bucket opClass =
        { (self.bucket opClass).refill now ceiling with tokens := 0 } := by
      rw [leaves, bucket_setBucket]
    have carry := (self.bucket opClass).refill_carry_lt now ceiling
    obtain ⟨left, small_, rest⟩ := ih fixed' (bucket ▸ ⟨rfl, rfl, rfl, carry⟩) gapless
    refine ⟨left, small_, ?_⟩
    have onwards := Gapless.le_getLast gapless
    have split : ((now :: times).getLast (List.cons_ne_nil now times) - last) * ceiling =
        (now - last) * ceiling +
          ((now :: times).getLast (List.cons_ne_nil now times) - now) * ceiling := by
      rw [← Nat.add_mul]
      congr 1
      omega
    rw [List.getLast_cons (List.cons_ne_nil now times), split]
    rw [bucket] at rest
    rw [Bucket.held, lastRefill] at earned
    dsimp only at rest
    omega

theorem bucket_new {policy : RateLimitPolicy} {created : Nat} {self : RateGovernor}
    (fixed : ∀ elapsed, policy.ceiling opClass elapsed = some ceiling)
    (made : new policy created = some self) :
    self.policy = policy ∧ self.bucket opClass = ⟨ceiling, created, 0, ceiling⟩ := by
  obtain ⟨write, writes, -, -⟩ := policy.ceiling_total .write ⟨0⟩
  obtain ⟨read, reads, -, -⟩ := policy.ceiling_total .read ⟨0⟩
  rw [new, writes, reads] at made
  cases made
  refine ⟨rfl, ?_⟩
  cases opClass
  · cases (fixed ⟨0⟩).symm.trans writes
    rfl
  · cases (fixed ⟨0⟩).symm.trans reads
    rfl

/-- Such a caller, from within a second of the governor's creation: all that a full bucket and
the time are worth, but for what was earned before the first call, when the bucket was full. -/
theorem drained_new {policy : RateLimitPolicy} {created first total : Nat} {times : List Nat}
    {self after : RateGovernor} (fixed : ∀ elapsed, policy.ceiling opClass elapsed = some ceiling)
    (small : ceiling ≤ u32Max) (made : new policy created = some self)
    (gapless : Gapless (created :: first :: times))
    (drained : Drained opClass self (first :: times) total after) :
    total + (first - created) * ceiling / 1000 = ceiling +
      ((first :: times).getLast (List.cons_ne_nil first times) - created) * ceiling / 1000 := by
  obtain ⟨rfl, full⟩ := bucket_new fixed made
  obtain ⟨near, gapless⟩ := List.isChain_cons_cons.mp gapless
  cases drained with
  | @cons _ mid _ _ _ count rest calls drained =>
    obtain ⟨counts, leaves⟩ := untilRefused_eq fixed small calls
    have bucket : mid.bucket opClass =
        { (self.bucket opClass).refill first ceiling with tokens := 0 } := by
      rw [leaves, bucket_setBucket]
    have fixed' : ∀ elapsed, mid.policy.ceiling opClass elapsed = some ceiling := by
      rw [leaves, policy_setBucket]
      exact fixed
    have carry := (self.bucket opClass).refill_carry_lt first ceiling
    obtain ⟨left, small_, earned⟩ :=
      drained_exact fixed' small (bucket ▸ ⟨rfl, rfl, rfl, carry⟩) gapless drained
    have onwards := Gapless.le_getLast gapless
    have split : ((first :: times).getLast (List.cons_ne_nil first times) - created) * ceiling =
        (first - created) * ceiling +
          ((first :: times).getLast (List.cons_ne_nil first times) - first) * ceiling := by
      rw [← Nat.add_mul]
      congr 1
      omega
    obtain ⟨tokens, carried⟩ := @Bucket.refill_full ceiling (self.bucket opClass) first small
      (by rw [full]) (by rw [full]) (by rw [full]) (by rw [full]; exact near.2)
    rw [bucket] at earned
    dsimp only at earned
    rw [carried, full] at earned
    dsimp only at earned
    rw [counts, tokens, split]
    omega

theorem run_apart {self last : RateGovernor} {calls : List (OpClass × Nat)}
    {decisions : List RateDecision} (apart : ∀ call ∈ calls, call.1 ≠ opClass)
    (ran : self.run calls = some (decisions, last)) :
    last.bucket opClass = self.bucket opClass ∧ last.policy = self.policy ∧
      last.createdAt = self.createdAt := by
  induction calls generalizing self decisions with
  | nil =>
    cases ran
    exact ⟨rfl, rfl, rfl⟩
  | cons call calls ih =>
    obtain ⟨other, now⟩ := call
    obtain ⟨decision, after, rest, admits, ran, rfl⟩ := run_cons.mp ran
    obtain ⟨_, _, bucket, -, -, -, -, called⟩ := self.admit_cases other now
    cases admits.symm.trans called
    have ne : opClass ≠ other := (apart (other, now) List.mem_cons_self).symm
    obtain ⟨same, policy, created⟩ := ih (fun call mem => apart call (List.mem_cons_of_mem _ mem)) ran
    rw [bucket_setBucket_of_ne _ _ ne] at same
    rw [policy_setBucket] at policy
    rw [createdAt_setBucket] at created
    exact ⟨same, policy, created⟩

/-- After its wait a call is admitted, whatever the other class asked meanwhile and whatever the
ceiling has become. -/
theorem admit_of_delay {self mid later : RateGovernor} {now next : Nat} {wait : Duration}
    {others : List (OpClass × Nat)} {decisions : List RateDecision}
    (refused : self.tryAdmit opClass now = some (.delay wait, mid))
    (apart : ∀ call ∈ others, call.1 ≠ opClass) (ran : mid.run others = some (decisions, later))
    (waited : wait.nanos ≤ (next - now) * 10 ^ 6) :
    ∃ after, later.tryAdmit opClass next = some (.admitted, after) := by
  obtain ⟨ceiling, decision, bucket, sets, positive, -, admits, called⟩ := self.admit_cases opClass now
  cases refused.symm.trans called
  obtain ⟨-, same⟩ | ⟨-, same⟩ := (self.bucket opClass).admit_cases now positive
  · cases admits.symm.trans same
  cases admits.symm.trans same
  obtain ⟨bucket, policy, created⟩ := run_apart apart ran
  rw [bucket_setBucket] at bucket
  rw [policy_setBucket] at policy
  rw [createdAt_setBucket] at created
  obtain ⟨ceiling', decision, bucket', sets', positive', -, admits', called'⟩ :=
    later.admit_cases opClass next
  have passed : (1000 + ceiling - 1) / ceiling ≤ next - now :=
    Nat.le_of_mul_le_mul_right waited (by decide)
  have wait := Bucket.wait_worth positive
  have ceilings : ceiling ≤ ceiling' := by
    rw [ceilingAt, policy, created] at sets'
    refine self.policy.ceiling_mono opClass (Nat.mul_le_mul_right _ ?_) sets sets'
    have positiveWait : 0 < (1000 + ceiling - 1) / ceiling := by
      apply Nat.pos_of_ne_zero
      intro zero
      rw [zero, Nat.zero_mul] at wait
      cases wait
    omega
  have ready : 1 ≤ ((later.bucket opClass).refill next ceiling').tokens := by
    apply Bucket.refill_ready positive'
    rw [bucket]
    exact wait.trans (Nat.mul_le_mul passed ceilings)
  obtain ⟨-, same'⟩ | ⟨empty, -⟩ := (later.bucket opClass).admit_cases next positive'
  · cases admits'.symm.trans same'
    exact ⟨_, called'⟩
  · omega

/-- At a fixed ceiling a governor admits no more in a window than a full bucket and what the
window earns, and no less to a caller that leaves nothing. -/
structure FixedExact (policy : RateLimitPolicy) (opClass : OpClass) (ceiling : Nat) : Prop where
  window : ∀ {created self calls decisions last} (low window : Nat),
    new policy created = some self → self.run calls = some (decisions, last) →
    (timesOf opClass calls).Pairwise (· ≤ ·) →
    admitted opClass low (low + window) calls decisions ≤ ceiling + (window * ceiling + 999) / 1000
  drained : ∀ {created first total times self after}, new policy created = some self →
    Gapless (created :: first :: times) → Drained opClass self (first :: times) total after →
    total + (first - created) * ceiling / 1000 = ceiling +
      ((first :: times).getLast (List.cons_ne_nil first times) - created) * ceiling / 1000
  drains : ∀ {created self}, new policy created = some self → ∀ times, ∃ total after,
    Drained opClass self times total after

theorem fixedExact (writes reads : NonZeroU32) (opClass : OpClass) :
    FixedExact (.fixedCeiling writes reads) opClass
      ((RateLimitPolicy.fixedCeiling writes reads).initial opClass).get := by
  have fixed := RateLimitPolicy.ceiling_fixed writes reads opClass
  have positive := ((RateLimitPolicy.fixedCeiling writes reads).initial opClass).positive
  have small := ((RateLimitPolicy.fixedCeiling writes reads).initial opClass).fits
  refine ⟨?_, fun made gapless drained => drained_new fixed small made gapless drained, ?_⟩
  · intro created self calls decisions last low window made ran sorted
    obtain ⟨policy, -⟩ := bucket_new fixed made
    have fixed' : ∀ elapsed, self.policy.ceiling opClass elapsed =
        some ((RateLimitPolicy.fixedCeiling writes reads).initial opClass).get := by
      rw [policy]
      exact fixed
    rw [admitted_run low (low + window) fixed' ran]
    have bound := @Bucket.admitted_window _ positive low (low + window) (self.bucket opClass) _ sorted
    rw [Nat.add_sub_cancel_left] at bound
    omega
  · intro created self made times
    obtain ⟨policy, -⟩ := bucket_new fixed made
    exact drained_ends times (policy ▸ fixed) small

end RateGovernor

open RateGovernor in
/-- A rate governor is exact, a ramp as long as its period's milliseconds fit a `u64`. -/
theorem rate_governor_exact (writes reads : NonZeroU32) (opClass : OpClass) :
    FixedExact (.fixedCeiling writes reads) opClass
      ((RateLimitPolicy.fixedCeiling writes reads).initial opClass).get ∧
    (∀ (self : RateGovernor) now wait mid others decisions later next,
      self.tryAdmit opClass now = some (.delay wait, mid) → (∀ call ∈ others, call.1 ≠ opClass) →
      mid.run others = some (decisions, later) → wait.nanos ≤ (next - now) * 10 ^ 6 →
      ∃ after, later.tryAdmit opClass next = some (.admitted, after)) ∧
    (∀ (period : Duration) millis, period.nanos = millis * 10 ^ 6 → millis ≠ 0 →
      ((∀ elapsed : Duration, elapsed.asMillis ≤ u64Max →
        (RateLimitPolicy.ramping writes reads period).ceiling opClass elapsed =
          some (min (((RateLimitPolicy.ramping writes reads period).initial opClass).get *
            2 ^ min 32 (elapsed.nanos / period.nanos)) u32Max)) ↔
        millis ≤ u64Max ∨
          ((RateLimitPolicy.ramping writes reads period).initial opClass).get = u32Max)) ∧
    (∀ (policy : RateLimitPolicy) (elapsed later : Duration) before after,
      elapsed.nanos ≤ later.nanos → policy.ceiling opClass elapsed = some before →
      policy.ceiling opClass later = some after → before ≤ after) ∧
    ∀ policy created, ∃ self, new policy created = some self ∧
      ∀ calls, ∃ decisions last, self.run calls = some (decisions, last) ∧ last.Fits := by
  refine ⟨fixedExact writes reads opClass, ?_, ?_, ?_, ?_⟩
  · intro self now wait mid others decisions later next refused apart ran waited
    exact admit_of_delay refused apart ran waited
  · intro period millis whole nonzero
    exact RateLimitPolicy.ceiling_ramping_iff writes reads opClass whole nonzero
  · intro policy elapsed later before after le hbefore hafter
    exact policy.ceiling_mono opClass le hbefore hafter
  · intro policy created
    obtain ⟨self, made, fits⟩ := fits_new policy created
    exact ⟨self, made, fits_run fits⟩

/-- A governor of two writes and one read a second. -/
def slowGovernor (write read : Bucket) : RateGovernor :=
  ⟨.fixedCeiling ⟨2, by decide, by decide⟩ ⟨1, by decide, by decide⟩, 0, write, read⟩

open RateGovernor in
theorem rate_governor_exact_slow :
    (∀ total after, Drained .write (slowGovernor ⟨2, 0, 0, 2⟩ ⟨1, 0, 0, 1⟩) [0, 500] total after →
      total = 3) ∧
    RateGovernor.admitted .write 0 500 [(.write, 0), (.write, 0), (.write, 400)]
      [.admitted, .admitted, .delay (Duration.fromMillis 500)] ≤ 3 ∧
    (∃ after, (slowGovernor ⟨2, 0, 0, 2⟩ ⟨0, 1, 1, 1⟩).tryAdmit .read 1001 = some (.admitted, after)) ∧
    (RateLimitPolicy.ramping ⟨3, by decide, by decide⟩ ⟨1, by decide, by decide⟩
      (Duration.fromMillis 1000)).ceiling .write (Duration.fromMillis 2500) = some 12 ∧ 3 ≤ 12 := by
  obtain ⟨exactly, -⟩ :=
    rate_governor_exact ⟨2, by decide, by decide⟩ ⟨1, by decide, by decide⟩ .write
  obtain ⟨-, delays, -⟩ :=
    rate_governor_exact ⟨2, by decide, by decide⟩ ⟨1, by decide, by decide⟩ .read
  obtain ⟨-, -, ramps, grows, -⟩ :=
    rate_governor_exact ⟨3, by decide, by decide⟩ ⟨1, by decide, by decide⟩ .write
  have doubled := (ramps (Duration.fromMillis 1000) 1000 rfl (by decide)).mpr (.inl (by decide))
  refine ⟨?_, ?_, ?_, doubled _ (by decide), ?_⟩
  · intro total after drained
    have gapless : Gapless (0 :: [0, 500]) := by simp [Gapless]
    exact exactly.drained (by decide) gapless drained
  · refine @FixedExact.window _ _ _ exactly 0 (slowGovernor ⟨2, 0, 0, 2⟩ ⟨1, 0, 0, 1⟩) _ _
      (slowGovernor ⟨0, 400, 800, 2⟩ ⟨1, 0, 0, 1⟩) 0 500 ?_ ?_ ?_ <;> decide
  · exact delays (slowGovernor ⟨2, 0, 0, 2⟩ ⟨0, 0, 0, 1⟩) 1 (Duration.fromMillis 1000) _ [] [] _
      1001 (by decide) nofun rfl (by decide)
  · exact grows _ ⟨0⟩ (Duration.fromMillis 2500) 3 12 (by decide)
      (doubled ⟨0⟩ (by decide)) (doubled _ (by decide))

/-- A ramp with a period of `2 ^ 64` milliseconds has doubled after one. -/
theorem ramping_long_period : ¬ ∀ (writes reads : NonZeroU32) (period elapsed : Duration)
    (millis : Nat) (opClass : OpClass), period.nanos = millis * 10 ^ 6 → millis ≠ 0 →
    period.nanos ≤ Duration.max.nanos →
    (RateLimitPolicy.ramping writes reads period).ceiling opClass elapsed =
      some (min (((RateLimitPolicy.ramping writes reads period).initial opClass).get *
        2 ^ min 32 (elapsed.nanos / period.nanos)) u32Max) := by
  intro exactly
  have doubled := exactly ⟨1, by decide, by decide⟩ ⟨1, by decide, by decide⟩
    (Duration.fromMillis (2 ^ 64)) (Duration.fromMillis 1) (2 ^ 64) .write rfl (by decide)
    (by decide)
  revert doubled
  decide

end Oqueue
