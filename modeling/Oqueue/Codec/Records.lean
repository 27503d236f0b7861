import Oqueue.Codec.Batch
import Mathlib.Logic.Relation

/-!
# The records of a batch

An iterator that decodes every field of every record, and the count that only
skips their lengths. Where the one reaches the end the other agrees with it.
-/

namespace Oqueue.Codec

open Reader

/-- Why an uncompressed blob's records could not be read. -/
inductive RecordsError where
  | decode (source : DecodeError)
  | recordLengthMismatch (declared spanned : Nat)
  deriving DecidableEq, Repr

structure RecordView where
  attributes : Int
  timestampDelta : Int
  offsetDelta : Int
  key : Option (List UInt8)
  value : Option (List UInt8)
  headers : List (List UInt8 × Option (List UInt8))
  deriving DecidableEq, Repr

abbrev ReadRecord (α : Type) := Read RecordsError α

def decoded {α : Type} (x : Decode α) : ReadRecord α := x.refusing .decode

/-- A varint-sized byte field, minus one for null. -/
def readSized : ReadRecord (Option (List UInt8)) := do
  let start ← get
  let len ← decoded readVarint
  if len = -1 then return none
  if len < 0 then throw (.decode (.negativeLength len start.pos))
  return some (← decoded (take len.toNat))

def readHeaders : Nat → ReadRecord (List (List UInt8 × Option (List UInt8)))
  | 0 => return []
  | headerCount + 1 => do
    match ← readSized with
    | none => throw (.decode (.negativeLength (-1) (← get).pos))
    | some key =>
      let value ← readSized
      return (key, value) :: (← readHeaders headerCount)

def readFields : ReadRecord RecordView := do
  let attributes ← decoded readI8
  let timestampDelta ← decoded readVarlong
  let offsetDelta ← decoded readVarint
  let key ← readSized
  let value ← readSized
  let headerCount ← decoded readVarint
  if headerCount < 0 then throw (.decode (.negativeLength headerCount (← get).pos))
  let headers ← readHeaders headerCount.toNat
  return { attributes, timestampDelta, offsetDelta, key, value, headers }

/-- The fields span the whole body. -/
def readBody (body : List UInt8) : Except RecordsError RecordView := do
  let (record, inner) ← readFields.run { buf := body }
  if inner.remaining ≠ 0 then throw (.recordLengthMismatch body.length (body.length - inner.remaining))
  return record

/-- A length, and then exactly that many bytes of fields. -/
def readOneRecord : ReadRecord RecordView := do
  let declared ← decoded readVarint
  if declared < 0 then throw (.decode (.negativeLength declared (← get).pos))
  let body ← decoded (take declared.toNat)
  liftM (readBody body)

/-- Iterates the records of an uncompressed blob, up to the first error. -/
structure RecordIter where
  cur : Cursor
  poisoned : Bool := false
  deriving DecidableEq, Repr

def iterRecords (blob : List UInt8) : RecordIter := { cur := { buf := blob } }

/-- What an error leaves of the cursor is not read again. -/
def RecordIter.next (self : RecordIter) : Option (Except RecordsError RecordView × RecordIter) :=
  if self.poisoned ∨ self.cur.remaining = 0 then none
  else match readOneRecord.run self.cur with
    | .ok (record, cur) => some (.ok record, { self with cur })
    | .error e => some (.error e, { self with poisoned := true })

inductive RecordIter.Yields : RecordIter → List (Except RecordsError RecordView) → Prop
  | done {iter} : iter.next = none → Yields iter []
  | item {iter after item items} : iter.next = some (item, after) → Yields after items →
      Yields iter (item :: items)

/-- One call of `next` that yields. -/
def RecordIter.Moves (iter after : RecordIter) : Prop := ∃ item, iter.next = some (item, after)

theorem consumes_readSized : Consumes 1 readSized := by
  apply Consumes.get
  intro start
  change Consumes (1 + 0) _
  refine (consumes_readVarint.refusing _).bind fun len => ?_
  apply Consumes.ite
  · exact Consumes.pure none
  apply Consumes.ite
  · exact Consumes.throw _
  · exact (((consumes_take _).refusing _).bind fun bytes => Consumes.pure _).weaken (Nat.zero_le _)

theorem consumes_readHeaders (headerCount : Nat) : Consumes 0 (readHeaders headerCount) := by
  induction headerCount with
  | zero => exact Consumes.pure _
  | succ headerCount ih =>
    refine Consumes.weaken (consumes_readSized.bind fun key => ?_) (Nat.zero_le (1 + 0))
    cases key with
    | none => exact Consumes.get fun cur => Consumes.throw _
    | some key =>
      have rest (value : Option (List UInt8)) :
          Consumes 0 (readHeaders headerCount >>= fun headers => pure ((key, value) :: headers)) :=
        ih.bind fun headers => Consumes.pure _
      exact (consumes_readSized.bind rest).weaken (Nat.zero_le _)

theorem consumes_readFields : Consumes minRecordBodyLen readFields := by
  change Consumes (1 + (1 + (1 + (1 + (1 + (1 + 0)))))) _
  refine (consumes_readI8.refusing _).bind fun attributes => ?_
  refine (consumes_readVarlong.refusing _).bind fun timestampDelta => ?_
  refine (consumes_readVarint.refusing _).bind fun offsetDelta => ?_
  refine consumes_readSized.bind fun key => consumes_readSized.bind fun value => ?_
  refine (consumes_readVarint.refusing _).bind fun headerCount => ?_
  apply Consumes.ite
  · exact Consumes.get fun cur => Consumes.throw _
  · exact (consumes_readHeaders _).bind fun headers => Consumes.pure _

/-- A record that decodes is one the count does not refuse, and both leave it at the same byte. -/
theorem count_of_readOneRecord {cur after : Cursor} {record : RecordView}
    (ran : readOneRecord.run cur = .ok (record, after)) : ∃ length mid body,
      readVarint.run cur = .ok (length, mid) ∧ (minRecordBodyLen : Int) ≤ length ∧
      (take length.toNat).run mid = .ok (body, after) := by
  obtain ⟨length, mid, hlength, ran⟩ := bind_eq_ok.mp ran
  rw [decoded, refusing_eq_ok] at hlength
  dsimp only at ran
  split at ran
  · cases ran
  rename_i nonneg
  obtain ⟨body, rest, hbody, ran⟩ := bind_eq_ok.mp ran
  rw [decoded, refusing_eq_ok] at hbody
  obtain ⟨fields, rfl⟩ := lift_eq_ok.mp ran
  refine ⟨length, mid, body, hlength, ?_, hbody⟩
  obtain ⟨enough, same⟩ := take_eq_ok.mp hbody
  cases same
  obtain ⟨⟨read, inner⟩, hread, -⟩ := Checked.bind_eq_ok.mp fields
  obtain ⟨same, moved, within⟩ := consumes_readFields hread (Nat.zero_le _)
  rw [Cursor.Inside, same] at within
  dsimp only at moved within same
  rw [List.length_take, List.length_drop] at within
  omega

/-- One round of the count: a length, and that many bytes left unread. -/
def skipRecord (total : Nat) : Decode Unit := do
  let cur ← get
  let length ← readVarint
  if length < 0 then throw (.lengthOutOfBounds length.natAbs total (batchHeaderLen + cur.pos))
  else if length < minRecordBodyLen then
    throw (.recordTooShort length.toNat minRecordBodyLen (batchHeaderLen + cur.pos))
  else
    let _ ← take length.toNat

theorem countLoop_succ (total rounds counted : Nat) (cur : Cursor) :
    (countLoop total (rounds + 1) counted).run cur =
      if cur.remaining = 0 then .ok (counted, cur)
      else (skipRecord total).run cur >>= fun out =>
        (countLoop total rounds (counted + 1)).run out.2 := by
  rw [countLoop, skipRecord]
  simp only [StateT.run_bind, StateT.run_get, pure_bind, bind_assoc]
  split
  · rfl
  · rw [StateT.run_bind]
    congr 1
    funext out
    split
    · rfl
    · split
      · rfl
      · simp only [StateT.run_bind, bind_assoc, StateT.run_pure, pure_bind]

theorem consumes_skipRecord (total : Nat) : Consumes (1 + minRecordBodyLen) (skipRecord total) := by
  apply Consumes.get
  intro cur
  refine consumes_readVarint.bind fun length => ?_
  split
  · exact Consumes.throw _
  · split
    · exact Consumes.throw _
    · rename_i long
      have least : minRecordBodyLen ≤ length.toNat := by omega
      exact ((consumes_take _).weaken least).bind fun bytes => Consumes.pure ()

/-- Every round takes a byte at least, so as many rounds as bytes reach the end. -/
theorem countLoop_ends {total : Nat} (rounds : Nat) {more counted : Nat} {cur : Cursor}
    (inside : cur.Inside) (enough : cur.remaining ≤ rounds) (le : rounds ≤ more) :
    (countLoop total more counted).run cur = (countLoop total rounds counted).run cur := by
  induction rounds generalizing more counted cur with
  | zero =>
    cases more with
    | zero => rfl
    | succ more =>
      rw [countLoop_succ, if_pos (Nat.le_zero.mp enough)]
      rfl
  | succ rounds ih =>
    obtain ⟨more, rfl⟩ := Nat.exists_eq_add_of_le' (Nat.lt_of_lt_of_le (Nat.succ_pos rounds) le)
    rw [countLoop_succ, countLoop_succ]
    split
    · rfl
    · cases ran : (skipRecord total).run cur with
      | error e => rfl
      | ok out =>
        obtain ⟨same, moved, within⟩ := consumes_skipRecord total ran inside
        apply ih within
        · rw [Cursor.remaining] at enough ⊢
          rw [same]
          omega
        · omega

theorem consumes_countLoop (total rounds counted : Nat) :
    Consumes 0 (countLoop total rounds counted) := by
  induction rounds generalizing counted with
  | zero => exact Consumes.pure counted
  | succ rounds ih =>
    intro cur out ran inside
    rw [countLoop_succ] at ran
    split at ran
    · cases ran
      exact ⟨rfl, Nat.le_refl _, inside⟩
    · obtain ⟨mid, skipped, rest⟩ := Checked.bind_eq_ok.mp ran
      exact ((consumes_skipRecord total).bind fun _ => ih (counted + 1)).weaken (Nat.zero_le _)
        (bind_eq_ok.mpr ⟨mid.1, mid.2, skipped, rest⟩) inside

theorem consumes_readOneRecord : Consumes 1 readOneRecord := by
  intro cur out ran inside
  obtain ⟨length, mid, body, hlength, -, hbody⟩ := count_of_readOneRecord ran
  exact (consumes_readVarint.bind fun _ => consumes_take _).weaken (Nat.le_add_right 1 length.toNat)
    (bind_eq_ok.mpr ⟨length, mid, hlength, hbody⟩) inside

namespace RecordIter

theorem next_cases {iter after : RecordIter} {item : Except RecordsError RecordView}
    (yields : iter.next = some (item, after)) :
    iter.poisoned = false ∧ iter.cur.remaining ≠ 0 ∧
      ((∃ record, item = .ok record ∧ readOneRecord.run iter.cur = .ok (record, after.cur) ∧
          after.poisoned = false) ∨
        ∃ e, item = .error e ∧ after = { iter with poisoned := true }) := by
  unfold next at yields
  split at yields
  · cases yields
  rename_i goes
  rw [not_or, Bool.not_eq_true] at goes
  refine ⟨goes.1, goes.2, ?_⟩
  split at yields
  · rename_i record cur ran
    cases yields
    exact .inl ⟨record, rfl, ran, goes.1⟩
  · rename_i e ran
    cases yields
    exact .inr ⟨e, rfl, rfl⟩

theorem Moves.inside {iter after : RecordIter} (moves : iter.Moves after)
    (inside : iter.cur.Inside) : after.cur.buf = iter.cur.buf ∧ after.cur.Inside := by
  obtain ⟨item, yields⟩ := moves
  obtain ⟨-, -, ⟨record, -, ran, -⟩ | ⟨e, -, rfl⟩⟩ := next_cases yields
  · obtain ⟨same, -, within⟩ := consumes_readOneRecord ran inside
    exact ⟨same, within⟩
  · exact ⟨rfl, inside⟩

theorem inside_of_moves {start iter : RecordIter} (inside : start.cur.Inside)
    (run : Relation.ReflTransGen Moves start iter) :
    iter.cur.buf = start.cur.buf ∧ iter.cur.Inside := by
  induction run with
  | refl => exact ⟨rfl, inside⟩
  | tail _ moves ih =>
    obtain ⟨same, within⟩ := moves.inside ih.2
    exact ⟨same.trans ih.1, within⟩

theorem next_poisoned {iter : RecordIter} (poisoned : iter.poisoned = true) : iter.next = none := by
  rw [next, if_pos (.inl poisoned)]

theorem yields_ends {iter : RecordIter} (inside : iter.cur.Inside) : ∃ items, Yields iter items := by
  induction count : iter.cur.remaining using Nat.strongRecOn generalizing iter with
  | ind bytes ih =>
    cases next : iter.next with
    | none => exact ⟨[], .done next⟩
    | some out =>
      obtain ⟨item, after⟩ := out
      obtain ⟨-, more, ⟨record, -, ran, -⟩ | ⟨e, -, rfl⟩⟩ := next_cases next
      · obtain ⟨same, moved, within⟩ := consumes_readOneRecord ran inside
        have fewer : after.cur.remaining < bytes := by
          dsimp only at same moved within
          rw [Cursor.Inside, same] at within
          rw [← count, Cursor.remaining, Cursor.remaining, same]
          omega
        obtain ⟨items, yields⟩ := ih _ fewer within rfl
        exact ⟨item :: items, .item next yields⟩
      · exact ⟨[item], .item next (.done (next_poisoned rfl))⟩

theorem length_of_yields {iter : RecordIter} {items : List (Except RecordsError RecordView)}
    (yields : iter.Yields items) (inside : iter.cur.Inside) :
    items.length ≤ iter.cur.remaining := by
  induction yields with
  | done next => exact Nat.zero_le _
  | @item iter after item items next rest ih =>
    obtain ⟨-, more, ⟨record, -, ran, -⟩ | ⟨e, -, rfl⟩⟩ := next_cases next
    · obtain ⟨same, moved, within⟩ := consumes_readOneRecord ran inside
      have fewer := ih within
      dsimp only at same moved within
      rw [Cursor.Inside, same] at within
      rw [Cursor.remaining, same] at fewer
      rw [Cursor.remaining, List.length_cons]
      omega
    · cases rest with
      | done _ => exact Nat.pos_of_ne_zero more
      | item next _ =>
        rw [next_poisoned rfl] at next
        cases next

/-- Where every record decodes, the count passes over the same ones. -/
theorem count_of_yields {iter : RecordIter} {records : List RecordView}
    (yields : iter.Yields (records.map .ok)) (clean : iter.poisoned = false)
    (inside : iter.cur.Inside) {total rounds : Nat} (enough : iter.cur.remaining ≤ rounds)
    (counted : Nat) : ∃ after,
      (countLoop total rounds counted).run iter.cur = .ok (counted + records.length, after) := by
  induction records generalizing iter rounds counted with
  | nil =>
    cases yields with
    | done ends =>
      have atEnd : iter.cur.remaining = 0 := by
        by_contra more
        rw [next, if_neg (by simp [clean, more])] at ends
        split at ends <;> cases ends
      refine ⟨iter.cur, ?_⟩
      cases rounds with
      | zero => rfl
      | succ rounds =>
        rw [countLoop_succ, if_pos atEnd]
        rfl
  | cons record records ih =>
    cases yields with
    | @item _ after _ _ next rest =>
      obtain ⟨-, more, ⟨read, -, ran, stays⟩ | ⟨e, isError, -⟩⟩ := next_cases next
      · obtain ⟨rounds, rfl⟩ :=
          Nat.exists_eq_add_of_le' (Nat.lt_of_lt_of_le (Nat.pos_of_ne_zero more) enough)
        obtain ⟨length, mid, body, hlength, long, hbody⟩ := count_of_readOneRecord ran
        obtain ⟨same, moved, within⟩ := consumes_readOneRecord ran inside
        have skipped : (skipRecord total).run iter.cur = .ok ((), after.cur) := by
          refine bind_eq_ok.mpr ⟨iter.cur, iter.cur, rfl, bind_eq_ok.mpr ⟨length, mid, hlength, ?_⟩⟩
          have nonneg : ¬ length < 0 := by omega
          rw [if_neg nonneg, if_neg (Int.not_lt.mpr long)]
          exact bind_eq_ok.mpr ⟨body, after.cur, hbody, rfl⟩
        have fewer : after.cur.remaining ≤ rounds := by
          dsimp only at same moved within
          rw [Cursor.remaining] at enough ⊢
          rw [same]
          omega
        obtain ⟨last, counts⟩ := ih rest stays within fewer (counted + 1)
        refine ⟨last, ?_⟩
        rw [countLoop_succ, if_neg more, skipped]
        refine counts.trans ?_
        rw [List.length_cons, Nat.add_assoc, Nat.add_comm 1]
      · cases isError

end RecordIter

/-- The bytes both walks are given: what the checksum covers, behind the header. -/
def recordArea (batch : List UInt8) : Except BatchError (List UInt8) :=
  (crcCoverage batch).map (·.drop (batchHeaderLen - crcCoverageStart))

theorem countRecords_of_yields {batch area : List UInt8} (covered : recordArea batch = .ok area)
    {records : List RecordView} (yields : (iterRecords area).Yields (records.map .ok)) :
    countRecords batch = .ok records.length := by
  have inside : (iterRecords area).cur.Inside := Nat.zero_le _
  cases coverage : crcCoverage batch with
  | error e =>
    rw [recordArea, coverage] at covered
    cases covered
  | ok bytes =>
    rw [recordArea, coverage] at covered
    cases covered
    obtain ⟨after, counts⟩ := RecordIter.count_of_yields yields rfl inside (Nat.le_refl _) 0
    have few : records.length < 2 ^ 32 := by
      have bound := RecordIter.length_of_yields yields inside
      have small := length_of_crcCoverage coverage
      rw [List.length_map] at bound
      change _ ≤ (bytes.drop (batchHeaderLen - crcCoverageStart)).length - 0 at bound
      rw [List.length_drop] at bound
      omega
    rw [Nat.zero_add] at counts
    rw [countRecords, coverage]
    refine Checked.bind_eq_ok.mpr ⟨bytes, rfl, Checked.bind_eq_ok.mpr ⟨(records.length, after), ?_, ?_⟩⟩
    · exact (Checked.accepts_mapError _).mpr counts
    · exact if_pos few

end Oqueue.Codec
