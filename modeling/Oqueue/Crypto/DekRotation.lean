import Oqueue.Crypto.DekCache

/-!
# The bounds of a rotation

A minted key is held by the call that minted it, then live under one topic, then dropped,
and never in two of these places. So a live entry's charge is what was sealed under its key,
and a seal meets what the lock's last look at the entry saw.
-/

namespace Oqueue.DekCache

def charged (seals : List Seal) (mint : Nat) : Nat :=
  ((seals.filter fun s => s.entry.dek.mint = mint).map fun s => s.request.bytes).sum

namespace Phase

/-- The key that only this call has. -/
def held : Phase → Option Nat
  | wrapping _ dek | wrapped _ dek _ | installing _ dek _ _ => some dek.mint
  | _ => none

/-- What the provider gave this call. -/
def candidate : Phase → Option (Dek × KeyId × WrappedKey)
  | wrapped request dek blob | installing request dek blob _ => some (dek, request.keyId, blob)
  | _ => none

def sealed : Phase → Bool
  | counting _ | done => true
  | _ => false

end Phase

/-- What a seal must have met: its key wrapped for the key it names, young, and not yet full. -/
structure Seal.Bounded (s : Seal) (earlier : List Seal)
    (wraps : List (Dek × KeyId × WrappedKey)) : Prop where
  together : (s.entry.dek, s.request.keyId, s.entry.wrapped) ∈ wraps
  requested : s.entry.keyId = s.request.keyId
  young : s.now - s.entry.mintedAt < maxAgeMs
  below : charged earlier s.entry.dek.mint < maxSealedBytes

namespace World

/-- An entry whose charge and key are its own. -/
structure Backs (w : World) (entry : LiveDek) : Prop where
  wrapped : (entry.dek, entry.keyId, entry.wrapped) ∈ w.wraps
  charge : entry.sealedBytes = min (charged w.seals entry.dek.mint) u64Max
  minted : entry.dek.mint < w.minted
  kept : entry.dek.mint ∉ w.dropped

/-- A minted key that nothing was sealed under, and that is not live. -/
structure Unused (w : World) (mint : Nat) : Prop where
  minted : mint < w.minted
  kept : mint ∉ w.dropped
  unsealed : ∀ s ∈ w.seals, s.entry.dek.mint ≠ mint
  absent : ∀ topic entry, w.live.lookup topic = some entry → entry.dek.mint ≠ mint

structure Kept (w : World) : Prop where
  backs : ∀ topic entry, w.live.lookup topic = some entry → w.Backs entry
  apart : ∀ topic topic' entry entry', w.live.lookup topic = some entry →
    w.live.lookup topic' = some entry' → entry.dek.mint = entry'.dek.mint → topic = topic'
  unused : ∀ call mint, (w.calls call).held = some mint → w.Unused mint
  single : ∀ call call' mint, (w.calls call).held = some mint →
    (w.calls call').held = some mint → call = call'
  candidates : ∀ call item, (w.calls call).candidate = some item → item ∈ w.wraps
  sealed : ∀ s ∈ w.seals, (w.calls s.call).sealed = true
  bounded : ∀ later s earlier, w.seals = later ++ s :: earlier → s.Bounded earlier w.wraps
  dropped : ∀ mint ∈ w.dropped, mint < w.minted
  used : ∀ s ∈ w.seals, s.entry.dek.mint < w.minted

variable {w next : World} {call : Nat} {request : Request} {now : Int} {entry : LiveDek}

theorem Kept.start (clock : Int) : Kept { clock } where
  backs := nofun
  apart := nofun
  unused := nofun
  single := nofun
  candidates := fun _ _ none_ => by cases none_
  sealed := fun _ member => by cases member
  bounded := fun _ _ _ whole => absurd whole.symm (by simp)
  dropped := fun _ member => by cases member
  used := fun _ member => by cases member

/-- A call that goes on to another phase keeps what it had, or loses it. -/
theorem Kept.move (kept : w.Kept) {phase : Phase}
    (held : ∀ mint, phase.held = some mint → (w.calls call).held = some mint)
    (candidate : ∀ item, phase.candidate = some item → item ∈ w.wraps)
    (sealed : (w.calls call).sealed = true → phase.sealed = true) : (w.move call phase).Kept := by
  have before : ∀ other mint, ((w.move call phase).calls other).held = some mint →
      (w.calls other).held = some mint := by
    intro other mint
    unfold World.move
    dsimp only
    rcases eq_or_ne other call with rfl | differs
    · rw [Function.update_self]
      exact held mint
    · rw [Function.update_of_ne differs]
      exact id
  exact {
    backs := fun topic entry found =>
      have backs := kept.backs topic entry found
      ⟨backs.wrapped, backs.charge, backs.minted, backs.kept⟩
    apart := kept.apart
    unused := fun other mint holds =>
      have unused := kept.unused other mint (before other mint holds)
      ⟨unused.minted, unused.kept, unused.unsealed, unused.absent⟩
    single := fun one other mint holds holds' =>
      kept.single one other mint (before one mint holds) (before other mint holds')
    candidates := by
      intro other item
      unfold World.move
      dsimp only
      rcases eq_or_ne other call with rfl | differs
      · rw [Function.update_self]
        exact candidate item
      · rw [Function.update_of_ne differs]
        exact kept.candidates other item
    sealed := by
      intro s member
      unfold World.move
      dsimp only
      rcases eq_or_ne s.call call with same | differs
      · rw [same, Function.update_self]
        exact sealed (same ▸ kept.sealed s member)
      · rw [Function.update_of_ne differs]
        exact kept.sealed s member
    bounded := kept.bounded
    dropped := kept.dropped
    used := kept.used }

theorem Kept.frame (kept : w.Kept) (clock : Int) (mints : Finmap fun _ : TopicId => Nat) :
    { w with clock, mints }.Kept where
  backs := fun topic entry found =>
    have backs := kept.backs topic entry found
    ⟨backs.wrapped, backs.charge, backs.minted, backs.kept⟩
  apart := kept.apart
  unused := fun call mint holds =>
    have unused := kept.unused call mint holds
    ⟨unused.minted, unused.kept, unused.unsealed, unused.absent⟩
  single := kept.single
  candidates := kept.candidates
  sealed := kept.sealed
  bounded := kept.bounded
  dropped := kept.dropped
  used := kept.used

theorem Kept.wrap (kept : w.Kept) (item : Dek × KeyId × WrappedKey) :
    { w with wraps := item :: w.wraps }.Kept where
  backs := fun topic entry found =>
    have backs := kept.backs topic entry found
    ⟨List.mem_cons_of_mem _ backs.wrapped, backs.charge, backs.minted, backs.kept⟩
  apart := kept.apart
  unused := fun call mint holds =>
    have unused := kept.unused call mint holds
    ⟨unused.minted, unused.kept, unused.unsealed, unused.absent⟩
  single := kept.single
  candidates := fun call item found => List.mem_cons_of_mem _ (kept.candidates call item found)
  sealed := kept.sealed
  bounded := fun later s earlier whole =>
    have bounded := kept.bounded later s earlier whole
    ⟨List.mem_cons_of_mem _ bounded.together, bounded.requested, bounded.young, bounded.below⟩
  dropped := kept.dropped
  used := kept.used

/-- A key that nobody holds and no topic uses is dropped. -/
theorem Kept.drop (kept : w.Kept) {mint : Nat} (minted : mint < w.minted)
    (unheld : ∀ call, (w.calls call).held ≠ some mint)
    (absent : ∀ topic entry, w.live.lookup topic = some entry → entry.dek.mint ≠ mint) :
    { w with dropped := mint :: w.dropped }.Kept where
  backs := by
    intro topic entry found
    have backs := kept.backs topic entry found
    refine ⟨backs.wrapped, backs.charge, backs.minted, ?_⟩
    rw [List.mem_cons, not_or]
    exact ⟨absent topic entry found, backs.kept⟩
  apart := kept.apart
  unused := by
    intro call other holds
    have unused := kept.unused call other holds
    refine ⟨unused.minted, ?_, unused.unsealed, unused.absent⟩
    rw [List.mem_cons, not_or]
    refine ⟨?_, unused.kept⟩
    rintro rfl
    exact unheld call holds
  single := kept.single
  candidates := kept.candidates
  sealed := kept.sealed
  bounded := kept.bounded
  dropped := List.forall_mem_cons.mpr ⟨minted, kept.dropped⟩
  used := kept.used

/-- What sealing under an entry takes. -/
structure Ready (w : World) (request : Request) (now : Int) (entry : LiveDek) : Prop where
  backs : w.Backs entry
  unheld : ∀ call, (w.calls call).held ≠ some entry.dek.mint
  alone : ∀ topic other, w.live.lookup topic = some other →
    other.dek.mint = entry.dek.mint → topic = request.topic
  usable : entry.usable request.keyId now = true

theorem charged_cons (s : Seal) (seals : List Seal) (mint : Nat) : charged (s :: seals) mint =
    (if s.entry.dek.mint = mint then s.request.bytes else 0) + charged seals mint := by
  unfold charged
  rw [List.filter_cons]
  by_cases same : s.entry.dek.mint = mint
  · simp [same]
  · simp [same]

theorem usable_eq {entry : LiveDek} {keyId : KeyId} : entry.usable keyId now = true ↔
    entry.keyId = keyId ∧ entry.sealedBytes < maxSealedBytes ∧
      saturatingSubI64 now entry.mintedAt < maxAgeMs := by
  unfold LiveDek.usable
  simp [and_assoc]

theorem young_of_saturatingSub {minted : Int} (young : saturatingSubI64 now minted < maxAgeMs) :
    now - minted < maxAgeMs := by
  unfold saturatingSubI64 maxAgeMs at *
  omega

theorem lookup_sealUnder {topic : TopicId} {other : LiveDek}
    (look : (w.sealUnder call request now entry).live.lookup topic = some other) :
    (topic = request.topic ∧ other = entry.charge request.bytes) ∨
      (topic ≠ request.topic ∧ w.live.lookup topic = some other) := by
  unfold World.sealUnder at look
  dsimp only at look
  rw [Table.lookup_insert_eq] at look
  split at look
  · rename_i same
    cases look
    exact .inl ⟨same, rfl⟩
  · rename_i differs
    exact .inr ⟨differs, look⟩

theorem Kept.sealUnder (kept : w.Kept) (sealed : (w.calls call).sealed = true)
    (ready : w.Ready request now entry) : (w.sealUnder call request now entry).Kept := by
  obtain ⟨requested, below, young⟩ := usable_eq.mp ready.usable
  have charge := ready.backs.charge
  have found : ∀ {topic other},
      (w.sealUnder call request now entry).live.lookup topic = some other →
        (topic = request.topic ∧ other = entry.charge request.bytes) ∨
          (w.live.lookup topic = some other ∧ other.dek.mint ≠ entry.dek.mint) := by
    intro topic other look
    refine (lookup_sealUnder look).imp_right fun ⟨differs, look⟩ => ⟨look, fun same => ?_⟩
    exact differs (ready.alone topic other look same)
  exact {
    backs := by
      intro topic other look
      rcases found look with ⟨rfl, rfl⟩ | ⟨look, differs⟩
      · refine ⟨ready.backs.wrapped, ?_, ready.backs.minted, ready.backs.kept⟩
        unfold World.sealUnder LiveDek.charge saturatingAdd
        dsimp only
        rw [charged_cons, if_pos rfl, charge]
        dsimp only
        omega
      · have backs := kept.backs topic other look
        refine ⟨backs.wrapped, ?_, backs.minted, backs.kept⟩
        unfold World.sealUnder
        dsimp only
        rw [charged_cons, if_neg differs.symm, Nat.zero_add]
        exact backs.charge
    apart := by
      intro topic topic' one other look look' same
      rcases found look with ⟨rfl, rfl⟩ | ⟨look, differs⟩
      · rcases found look' with ⟨rfl, rfl⟩ | ⟨look', differs'⟩
        · rfl
        · exact absurd same.symm differs'
      · rcases found look' with ⟨rfl, rfl⟩ | ⟨look', differs'⟩
        · exact absurd same differs
        · exact kept.apart topic topic' one other look look' same
    unused := by
      intro other mint holds
      have unused := kept.unused other mint holds
      have differs : entry.dek.mint ≠ mint := by
        rintro rfl
        exact ready.unheld other holds
      refine ⟨unused.minted, unused.kept, ?_, ?_⟩
      · exact List.forall_mem_cons.mpr ⟨differs, unused.unsealed⟩
      · intro topic one look
        rcases found look with ⟨rfl, rfl⟩ | ⟨look, -⟩
        · exact differs
        · exact unused.absent topic one look
    single := kept.single
    candidates := kept.candidates
    sealed := List.forall_mem_cons.mpr ⟨sealed, kept.sealed⟩
    bounded := by
      intro later s earlier whole
      have whole : ⟨call, request, now, entry⟩ :: w.seals = later ++ s :: earlier := whole
      cases later with
      | nil =>
        obtain ⟨rfl, rfl⟩ := List.cons.inj whole
        refine ⟨requested ▸ ready.backs.wrapped, requested, young_of_saturatingSub young, ?_⟩
        have short : maxSealedBytes < u64Max := by decide
        dsimp only
        omega
      | cons _ later => exact kept.bounded later s earlier (List.cons.inj whole).2
    dropped := kept.dropped
    used := List.forall_mem_cons.mpr ⟨ready.backs.minted, kept.used⟩ }

theorem Kept.ready_live (kept : w.Kept) (found : w.live.lookup request.topic = some entry)
    (usable : entry.usable request.keyId now = true) : w.Ready request now entry where
  backs := kept.backs _ _ found
  unheld := fun call holds => (kept.unused call _ holds).absent _ _ found rfl
  alone := fun _ _ look same => kept.apart _ _ _ _ look found same
  usable := usable

/-- A fresh entry is ready, once no call holds its key. -/
theorem Kept.ready_fresh {dek : Dek} {blob : WrappedKey} (unused : w.Unused dek.mint)
    (unheld : ∀ call, (w.calls call).held ≠ some dek.mint)
    (wrapped : (dek, request.keyId, blob) ∈ w.wraps) :
    w.Ready request now ⟨request.keyId, blob, dek, now, 0⟩ where
  backs := by
    refine ⟨wrapped, ?_, unused.minted, unused.kept⟩
    have none_ : w.seals.filter (fun s => s.entry.dek.mint = dek.mint) = [] := by
      rw [List.filter_eq_nil_iff]
      intro s member
      simpa using unused.unsealed s member
    unfold charged
    rw [none_]
    rfl
  unheld := unheld
  alone := fun topic other look same => absurd same (unused.absent topic other look)
  usable := by
    have empty : 0 < maxSealedBytes := by decide
    refine usable_eq.mpr ⟨rfl, empty, ?_⟩
    unfold saturatingSubI64 maxAgeMs
    dsimp only
    omega

theorem Kept.useLive (kept : w.Kept) (at_ : w.calls call = .looking request now) :
    (w.useLive call request now).Kept := by
  have miss : (w.move call (.missed request)).Kept :=
    kept.move nofun nofun fun sealed => by rw [at_] at sealed; cases sealed
  unfold World.useLive
  split
  · exact miss
  · rename_i entry found
    split
    · rename_i usable
      have moved : (w.move call .done).Kept := kept.move nofun nofun fun _ => rfl
      have sealed : ((w.move call .done).calls call).sealed = true := by
        unfold World.move
        dsimp only
        rw [Function.update_self]
        rfl
      exact moved.sealUnder sealed (moved.ready_live found usable)
    · exact miss

/-- A call that has sealed holds nothing, so its key is no longer another's to use. -/
theorem Kept.install (kept : w.Kept) {dek : Dek} {blob : WrappedKey}
    (at_ : w.calls call = .installing request dek blob now) :
    (w.install call request dek blob now).Kept := by
  have holds : (w.calls call).held = some dek.mint := by
    rw [at_]
    rfl
  have unused := kept.unused call dek.mint holds
  have wrapped : (dek, request.keyId, blob) ∈ w.wraps := by
    apply kept.candidates call
    rw [at_]
    rfl
  -- In every case the call has moved on when the seal runs, and no longer holds its key.
  have leaves : ∀ {phase : Phase}, phase.held = none → phase.candidate = none →
      phase.sealed = true → (w.move call phase).Kept ∧
        ((w.move call phase).calls call).sealed = true ∧
        ∀ other, ((w.move call phase).calls other).held ≠ some dek.mint := by
    intro phase held candidate sealed
    have updated : (w.move call phase).calls call = phase := Function.update_self ..
    refine ⟨kept.move ?_ ?_ fun _ => sealed, updated.symm ▸ sealed, ?_⟩
    · intro mint holds
      rw [held] at holds
      cases holds
    · intro item found
      rw [candidate] at found
      cases found
    · intro other holds'
      rcases eq_or_ne other call with rfl | differs
      · rw [updated, held] at holds'
        cases holds'
      · have before : (w.move call phase).calls other = w.calls other :=
          Function.update_of_ne differs ..
        rw [before] at holds'
        exact differs (kept.single other call dek.mint holds' holds)
  have fresh : ∀ {phase : Phase}, phase.held = none → phase.candidate = none →
      phase.sealed = true → ((w.move call phase).sealUnder call request now
        ⟨request.keyId, blob, dek, now, 0⟩).Kept := by
    intro phase held candidate sealed
    obtain ⟨moved, sealed, unheld⟩ := leaves held candidate sealed
    have unused : (w.move call phase).Unused dek.mint :=
      ⟨unused.minted, unused.kept, unused.unsealed, unused.absent⟩
    exact moved.sealUnder sealed (Kept.ready_fresh unused unheld wrapped)
  unfold World.install
  dsimp only
  split
  · rename_i entry found
    split
    · rename_i usable
      have none_ : Phase.done.held = none := rfl
      obtain ⟨moved, sealed, unheld⟩ := leaves none_ rfl rfl
      refine (moved.sealUnder sealed (moved.ready_live found usable)).drop unused.minted unheld ?_
      intro topic other look
      rcases lookup_sealUnder look with ⟨rfl, rfl⟩ | ⟨-, look⟩
      · exact unused.absent _ entry found
      · exact unused.absent _ _ look
    · have none_ : (Phase.counting request).held = none := rfl
      obtain ⟨moved, -, -⟩ := leaves none_ rfl rfl
      refine (fresh none_ rfl rfl).drop (kept.backs _ _ found).minted ?_ ?_
      · intro other holds
        exact (moved.unused other _ holds).absent _ _ found rfl
      · intro topic other look
        rcases lookup_sealUnder look with ⟨rfl, rfl⟩ | ⟨differs, look⟩
        · exact (unused.absent _ _ found).symm
        · exact fun same => differs (kept.apart _ _ _ _ look found same)
  · exact fresh rfl rfl rfl

theorem Kept.mint (kept : w.Kept) (at_ : w.calls call = .missed request) (bytes : List UInt8) :
    { w.move call (.wrapping request ⟨bytes, w.minted⟩) with minted := w.minted + 1 }.Kept := by
  have before : ∀ other mint,
      ((w.move call (.wrapping request ⟨bytes, w.minted⟩)).calls other).held = some mint →
        (other = call ∧ mint = w.minted) ∨ (w.calls other).held = some mint := by
    intro other mint
    unfold World.move
    dsimp only
    rcases eq_or_ne other call with rfl | differs
    · rw [Function.update_self]
      intro holds
      cases holds
      exact .inl ⟨rfl, rfl⟩
    · rw [Function.update_of_ne differs]
      exact .inr
  have older : ∀ {other mint}, (w.calls other).held = some mint → mint ≠ w.minted :=
    fun holds => (kept.unused _ _ holds).minted.ne
  exact {
    backs := fun topic entry found =>
      have backs := kept.backs topic entry found
      ⟨backs.wrapped, backs.charge, Nat.lt_succ_of_lt backs.minted, backs.kept⟩
    apart := kept.apart
    unused := by
      intro other mint holds
      rcases before other mint holds with ⟨-, rfl⟩ | holds
      · exact ⟨Nat.lt_succ_self _, fun member => (kept.dropped _ member).ne rfl,
          fun s member => (kept.used s member).ne,
          fun topic entry found => (kept.backs topic entry found).minted.ne⟩
      · have unused := kept.unused other mint holds
        exact ⟨Nat.lt_succ_of_lt unused.minted, unused.kept, unused.unsealed, unused.absent⟩
    single := by
      intro one other mint holds holds'
      rcases before one mint holds with ⟨first, new⟩ | old
      · rcases before other mint holds' with ⟨second, -⟩ | old'
        · exact first.trans second.symm
        · exact absurd new (older old')
      · rcases before other mint holds' with ⟨-, new⟩ | old'
        · exact absurd new (older old)
        · exact kept.single one other mint old old'
    candidates := by
      intro other item
      unfold World.move
      dsimp only
      rcases eq_or_ne other call with rfl | differs
      · rw [Function.update_self]
        rintro ⟨⟩
      · rw [Function.update_of_ne differs]
        exact kept.candidates other item
    sealed := by
      intro s member
      unfold World.move
      dsimp only
      rcases eq_or_ne s.call call with same | differs
      · have sealed := kept.sealed s member
        rw [same, at_] at sealed
        cases sealed
      · rw [Function.update_of_ne differs]
        exact kept.sealed s member
    bounded := kept.bounded
    dropped := fun mint member => Nat.lt_succ_of_lt (kept.dropped mint member)
    used := fun s member => Nat.lt_succ_of_lt (kept.used s member) }

theorem kept_step {action : Action} (kept : w.Kept) (stepped : w.step action = some next) :
    next.Kept := by
  cases action with
  | tick now =>
    dsimp only [World.step] at stepped
    split at stepped
    · cases stepped
      exact kept.frame now w.mints
    · cases stepped
  | call call request =>
    dsimp only [World.step] at stepped
    split at stepped
    · rename_i at_
      cases stepped
      exact kept.move nofun nofun fun sealed => by rw [at_] at sealed; cases sealed
    · cases stepped
  | useLive call =>
    dsimp only [World.step] at stepped
    split at stepped
    · rename_i at_
      cases stepped
      exact kept.useLive at_
    · cases stepped
  | mint call bytes =>
    dsimp only [World.step] at stepped
    split at stepped
    · rename_i at_
      split at stepped
      · cases stepped
        exact kept.move nofun nofun fun sealed => by rw [at_] at sealed; cases sealed
      · cases stepped
        exact kept.mint at_ _
    · cases stepped
  | wrap call answer =>
    dsimp only [World.step] at stepped
    split at stepped
    · rename_i request dek at_
      split at stepped
      · cases stepped
        exact kept.move nofun nofun fun sealed => by rw [at_] at sealed; cases sealed
      · rename_i blob
        cases stepped
        apply (kept.wrap (dek, request.keyId, blob)).move
        · intro mint holds
          rw [at_]
          exact holds
        · rintro item ⟨⟩
          exact List.mem_cons_self
        · intro sealed
          rw [at_] at sealed
          cases sealed
    · cases stepped
  | readClock call =>
    dsimp only [World.step] at stepped
    split at stepped
    · rename_i request dek blob at_
      cases stepped
      apply kept.move
      · intro mint holds
        rw [at_]
        exact holds
      · intro item found
        apply kept.candidates call
        rw [at_]
        exact found
      · intro sealed
        rw [at_] at sealed
        cases sealed
    · cases stepped
  | install call =>
    dsimp only [World.step] at stepped
    split at stepped
    · rename_i at_
      cases stepped
      exact kept.install at_
    · cases stepped
  | count call =>
    dsimp only [World.step] at stepped
    split at stepped
    · cases stepped
      have moved : (w.move call .done).Kept := kept.move nofun nofun fun _ => rfl
      exact moved.frame w.clock _
    · cases stepped
  | drop call =>
    dsimp only [World.step] at stepped
    split at stepped
    · rename_i at_
      cases stepped
      have moved : (w.move call .failed).Kept :=
        kept.move nofun nofun fun sealed => by rw [at_] at sealed; cases sealed
      exact moved
    · cases stepped

/-- A step leaves the cache and the seals as they are, or it is a critical section that seals
once under a key that was not dropped. -/
theorem step_seals {action : Action} (kept : w.Kept) (stepped : w.step action = some next) :
    (next.live = w.live ∧ next.seals = w.seals ∧ next.dropped = w.dropped) ∨
      ∃ s, next.seals = s :: w.seals ∧ s.entry.dek.mint ∉ w.dropped ∧
        (∀ mint ∈ w.dropped, mint ∈ next.dropped) ∧
        (action = .useLive s.call ∨ action = .install s.call) := by
  cases action with
  | useLive call =>
    dsimp only [World.step] at stepped
    split at stepped
    · rename_i request now at_
      cases stepped
      unfold World.useLive
      split
      · exact .inl ⟨rfl, rfl, rfl⟩
      · rename_i entry found
        split
        · exact .inr ⟨_, rfl, (kept.backs _ _ found).kept, fun _ member => member, .inl rfl⟩
        · exact .inl ⟨rfl, rfl, rfl⟩
    · cases stepped
  | install call =>
    dsimp only [World.step] at stepped
    split at stepped
    · rename_i request dek blob now at_
      cases stepped
      have holds : (w.calls call).held = some dek.mint := by
        rw [at_]
        rfl
      have unused := kept.unused call dek.mint holds
      right
      unfold World.install
      dsimp only
      split
      · rename_i entry found
        split
        · exact ⟨_, rfl, (kept.backs _ _ found).kept, fun _ => List.mem_cons_of_mem _, .inr rfl⟩
        · exact ⟨_, rfl, unused.kept, fun _ => List.mem_cons_of_mem _, .inr rfl⟩
      · exact ⟨_, rfl, unused.kept, fun _ member => member, .inr rfl⟩
    · cases stepped
  | tick now =>
    dsimp only [World.step] at stepped
    split at stepped
    · cases stepped
      exact .inl ⟨rfl, rfl, rfl⟩
    · cases stepped
  | call call request | readClock call | count call | drop call =>
    dsimp only [World.step] at stepped
    split at stepped
    · cases stepped
      exact .inl ⟨rfl, rfl, rfl⟩
    · cases stepped
  | mint call answer | wrap call answer =>
    dsimp only [World.step] at stepped
    split at stepped
    · split at stepped
      · cases stepped
        exact .inl ⟨rfl, rfl, rfl⟩
      · cases stepped
        exact .inl ⟨rfl, rfl, rfl⟩
    · cases stepped

theorem kept_run {s : World} {actions : List Action} (kept : s.Kept)
    (ran : Steps.run World.step s actions = some w) : w.Kept :=
  Steps.run_invariant World.Kept (fun _ _ _ kept stepped => kept_step kept stepped) kept ran

theorem dropped_run {s : World} {actions : List Action} {mint : Nat} (kept : s.Kept)
    (dropped : mint ∈ s.dropped) (ran : Steps.run World.step s actions = some w) :
    (w.seals.filter fun item => item.entry.dek.mint = mint) =
      s.seals.filter fun item => item.entry.dek.mint = mint := by
  induction actions generalizing s with
  | nil =>
    cases ran
    rfl
  | cons action rest ih =>
    obtain ⟨mid, stepped, ran⟩ := Steps.run_cons.mp ran
    have kept' := kept_step kept stepped
    rcases step_seals kept stepped with ⟨-, seals, same⟩ | ⟨item, seals, other, stays, -⟩
    · rw [ih kept' (same ▸ dropped) ran, seals]
    · have differs : ¬ item.entry.dek.mint = mint := by
        rintro rfl
        exact other dropped
      rw [ih kept' (stays mint dropped) ran, seals, List.filter_cons_of_neg]
      exact decide_eq_false differs ▸ Bool.false_ne_true

/-- What is live under another topic stays; under the sealed one it is the entry of the seal. -/
theorem sealUnder_keeps (call : Nat) (now : Int) {request : Request} {entry other : LiveDek}
    {topic : TopicId} (found : w.live.lookup topic = some other)
    (same : topic = request.topic → other.dek = entry.dek) :
    ∃ other', (w.sealUnder call request now entry).live.lookup topic = some other' ∧
      other'.dek = other.dek := by
  unfold World.sealUnder
  dsimp only
  rw [Table.lookup_insert_eq]
  split
  · rename_i here
    exact ⟨_, rfl, (same here).symm⟩
  · exact ⟨other, found, rfl⟩

theorem sealUnder_installs (call : Nat) (request : Request) (now : Int) (entry : LiveDek) :
    ∃ other, (w.sealUnder call request now entry).live.lookup request.topic = some other ∧
      other.dek = entry.dek :=
  ⟨_, Finmap.lookup_insert _, rfl⟩

theorem useLive_keeps (call : Nat) (request : Request) (now : Int) {topic : TopicId}
    {other : LiveDek} (found : w.live.lookup topic = some other) :
    ∃ other', (w.useLive call request now).live.lookup topic = some other' ∧
      other'.dek = other.dek := by
  unfold World.useLive
  split
  · exact ⟨other, found, rfl⟩
  · rename_i entry look
    split
    · apply sealUnder_keeps call now found
      rintro rfl
      rw [look] at found
      cases found
      rfl
    · exact ⟨other, found, rfl⟩

theorem install_keeps (call : Nat) (request : Request) (dek : Dek) (blob : WrappedKey) (now : Int)
    {topic : TopicId} {other : LiveDek} (found : w.live.lookup topic = some other) :
    (∃ other', (w.install call request dek blob now).live.lookup topic = some other' ∧
      other'.dek = other.dek) ∨ other.dek.mint ∈ (w.install call request dek blob now).dropped := by
  unfold World.install
  dsimp only
  split
  · rename_i entry look
    split
    · left
      apply sealUnder_keeps call now found
      rintro rfl
      rw [look] at found
      cases found
      rfl
    · by_cases here : topic = request.topic
      · subst here
        rw [look] at found
        cases found
        exact .inr List.mem_cons_self
      · exact .inl (sealUnder_keeps call now found fun same => absurd same here)
  · rename_i look
    left
    apply sealUnder_keeps call now found
    rintro rfl
    rw [look] at found
    cases found

theorem install_installs (call : Nat) (request : Request) (dek : Dek) (blob : WrappedKey)
    (now : Int) : (∃ entry, (w.install call request dek blob now).live.lookup request.topic =
      some entry ∧ entry.dek = dek) ∨ dek.mint ∈ (w.install call request dek blob now).dropped := by
  unfold World.install
  dsimp only
  split
  · split
    · exact .inr List.mem_cons_self
    · exact .inl (sealUnder_installs call request now _)
  · exact .inl (sealUnder_installs call request now _)

/-- A key leaves the cache, or misses it, only by being dropped. -/
theorem step_keeps {action : Action} (stepped : w.step action = some next) :
    (∀ topic entry, w.live.lookup topic = some entry →
      (∃ entry', next.live.lookup topic = some entry' ∧ entry'.dek = entry.dek) ∨
        entry.dek.mint ∈ next.dropped) ∧
    ∀ call request dek blob now, action = .install call →
      w.calls call = .installing request dek blob now →
      (∃ entry, next.live.lookup request.topic = some entry ∧ entry.dek = dek) ∨
        dek.mint ∈ next.dropped := by
  cases action with
  | useLive call =>
    refine ⟨fun topic entry found => .inl ?_, nofun⟩
    dsimp only [World.step] at stepped
    split at stepped
    · cases stepped
      exact useLive_keeps call _ _ found
    · cases stepped
  | install call =>
    dsimp only [World.step] at stepped
    split at stepped
    · rename_i request dek blob now at_
      cases stepped
      refine ⟨fun topic entry found => install_keeps call request dek blob now found, ?_⟩
      rintro _ request' dek' blob' now' ⟨⟩ at'
      rw [at_] at at'
      cases at'
      exact install_installs call request dek blob now
    · cases stepped
  | tick now =>
    dsimp only [World.step] at stepped
    split at stepped
    · cases stepped
      exact ⟨fun _ entry found => .inl ⟨entry, found, rfl⟩, nofun⟩
    · cases stepped
  | call call request | readClock call | count call | drop call =>
    dsimp only [World.step] at stepped
    split at stepped
    · cases stepped
      exact ⟨fun _ entry found => .inl ⟨entry, found, rfl⟩, nofun⟩
    · cases stepped
  | mint call answer | wrap call answer =>
    dsimp only [World.step] at stepped
    split at stepped
    · split at stepped
      · cases stepped
        exact ⟨fun _ entry found => .inl ⟨entry, found, rfl⟩, nofun⟩
      · cases stepped
        exact ⟨fun _ entry found => .inl ⟨entry, found, rfl⟩, nofun⟩
    · cases stepped

theorem step_refused {call : Nat} {action : Action}
    (refused : action = .mint call none ∨ action = .wrap call none)
    (stepped : w.step action = some next) : next = w.move call .failed := by
  rcases refused with rfl | rfl
  · dsimp only [World.step] at stepped
    split at stepped
    · cases stepped
      rfl
    · cases stepped
  · dsimp only [World.step] at stepped
    split at stepped
    · cases stepped
      rfl
    · cases stepped

end World

/-- Whatever the order of the calls and of what the provider answers, every seal runs under a
key wrapped for the key it asks for, young and not full; a live key is charged with what was
sealed under it; one that was replaced, or came second, is not used again; and a call that
fails seals nothing and leaves the cache as it was. -/
theorem rotation_bounds (clock : Int) (actions : List Action) (w : World)
    (ran : Steps.run World.step { clock } actions = some w) :
    (∀ later s earlier, w.seals = later ++ s :: earlier → s.Bounded earlier w.wraps) ∧
    (∀ topic entry, w.live.lookup topic = some entry →
      entry.sealedBytes = min (charged w.seals entry.dek.mint) u64Max) ∧
    (w.live.entries.NodupKeys ∧ ∀ topic topic' entry entry', w.live.lookup topic = some entry →
      w.live.lookup topic' = some entry' → entry.dek.mint = entry'.dek.mint → topic = topic') ∧
    (∀ action next, w.step action = some next →
      (∀ topic entry, w.live.lookup topic = some entry →
        (∃ entry', next.live.lookup topic = some entry' ∧ entry'.dek = entry.dek) ∨
          entry.dek.mint ∈ next.dropped) ∧
      ∀ call request dek blob now, action = .install call →
        w.calls call = .installing request dek blob now →
        (∃ entry, next.live.lookup request.topic = some entry ∧ entry.dek = dek) ∨
          dek.mint ∈ next.dropped) ∧
    (∀ mint ∈ w.dropped, ∀ more next, Steps.run World.step w more = some next →
      (next.seals.filter fun s => s.entry.dek.mint = mint) =
        w.seals.filter fun s => s.entry.dek.mint = mint) ∧
    (∀ action next, w.step action = some next → (next.live = w.live ∧ next.seals = w.seals) ∨
      ∃ s, next.seals = s :: w.seals ∧ (action = .useLive s.call ∨ action = .install s.call)) ∧
    (∀ call action next, action = .mint call none ∨ action = .wrap call none →
      w.step action = some next → next = w.move call .failed) ∧
    ∀ call, w.calls call = .failed → ∀ s ∈ w.seals, s.call ≠ call := by
  have kept := World.kept_run (World.Kept.start clock) ran
  refine ⟨kept.bounded, fun topic entry found => (kept.backs topic entry found).charge,
    ⟨w.live.nodupKeys, kept.apart⟩, fun action next stepped => World.step_keeps stepped,
    fun mint dropped more next ran => World.dropped_run kept dropped ran,
    fun action next stepped => ?_, fun call action next => World.step_refused, ?_⟩
  · refine (World.step_seals kept stepped).imp ?_ ?_
    · exact fun same => ⟨same.1, same.2.1⟩
    · rintro ⟨s, seals, -, -, section_⟩
      exact ⟨s, seals, section_⟩
  · rintro call failed s member rfl
    have sealed := kept.sealed s member
    rw [failed] at sealed
    cases sealed

/-- Two calls race to install their keys, and the second seals under the first's; a week later
one call's mint fails, the next replaces the key and fills the new one, and the last, which
would have to replace that, is refused by the provider. -/
def rotated : List Action :=
  let request : Request := ⟨⟨"orders"⟩, .k, 10⟩
  [.call 0 request, .call 1 request, .useLive 0, .useLive 1, .mint 0 (some [1]), .mint 1 (some [2]),
    .wrap 0 (some [10]), .wrap 1 (some [20]), .readClock 0, .readClock 1, .install 0, .install 1,
    .count 0, .tick 604800005, .call 2 request, .useLive 2, .mint 2 none,
    .call 3 { request with bytes := maxSealedBytes }, .useLive 3, .mint 3 (some [3]),
    .wrap 3 (some [30]), .readClock 3, .install 3, .count 3, .call 4 request, .useLive 4,
    .mint 4 (some [4]), .wrap 4 none]

theorem rotation_bounds_rotated : ∃ w, Steps.run World.step { clock := 5 } rotated = some w ∧
    w.seals.map (fun s => (s.call, s.entry.dek.mint)) = [(3, 2), (1, 0), (0, 0)] ∧
    w.dropped = [0, 1] ∧
    (∀ later s earlier, w.seals = later ++ s :: earlier → s.Bounded earlier w.wraps) ∧
    (∀ more next, Steps.run World.step w more = some next →
      (next.seals.filter fun s => s.entry.dek.mint = 0).length = 2) ∧
    ∀ s ∈ w.seals, s.call ≠ 2 ∧ s.call ≠ 4 := by
  obtain ⟨w, ran⟩ : ∃ w, Steps.run World.step { clock := 5 } rotated = some w := ⟨_, rfl⟩
  obtain ⟨bounded, -, -, -, unused, -, -, failed⟩ := rotation_bounds 5 rotated w ran
  cases ran
  refine ⟨_, rfl, rfl, rfl, bounded, fun more next ran => ?_, fun s member => ⟨?_, ?_⟩⟩
  · exact congrArg List.length (unused 0 (List.mem_cons_self ..) more next ran)
  · exact failed 2 rfl s member
  · exact failed 4 rfl s member

end Oqueue.DekCache
