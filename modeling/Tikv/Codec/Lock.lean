import Mathlib.Algebra.Order.BigOperators.Group.List
import Tikv.Codec.Record

/-!
# The lock record

`Lock::to_bytes` and `Lock::parse`, the format of the lock CF. A lock is a header (type, primary
key, start timestamp and time to live) and ten optional fields. A field is written only if its
value is not the default, so what is left out is what the parser starts from.

`Lock.Encodable` says which locks the format can hold: the ranges of the machine types, and the
values that only exist in memory left at their defaults. For these locks the buffer `to_bytes`
allocates is large enough, and the parser returns what was written, also if bytes follow that
begin with no known tag (`Lock.parse_toBytes_append`), as long as there are fewer than `2 ^ 31`
secondary keys: the parser counts them with an `i32`.
-/

namespace Tikv

open Codec List Decoder LastChange

/-! ### The header -/

/-- `LockType::to_u8`: the letters `P`, `D`, `L` and `S`. -/
def LockType.toU8 : LockType → UInt8
  | .put => 80
  | .delete => 68
  | .lock => 76
  | .pessimistic => 83

/-- `LockType::from_u8`. -/
def LockType.fromU8 (b : UInt8) : Option LockType :=
  if b = 80 then some .put
  else if b = 68 then some .delete
  else if b = 76 then some .lock
  else if b = 83 then some .pessimistic
  else none

theorem LockType.fromU8_toU8 (t : LockType) : fromU8 t.toU8 = some t := by
  cases t <;> rfl

/-! ### The fields -/

/-- The optional fields of a lock record. -/
inductive LockTag
  | shortValue
  | forUpdateTs
  | txnSize
  | minCommitTs
  | asyncCommit
  | rollbackTs
  | lastChange
  | txnSource
  | pessimisticLockWithConflict
  | generation
  deriving DecidableEq

namespace LockTag

/-- The prefix of a field: `v`, `f`, `t`, `c`, `a`, `r`, `l`, `s`, `F` and `g`. -/
def toU8 : LockTag → UInt8
  | .shortValue => shortValuePrefix
  | .forUpdateTs => 102
  | .txnSize => 116
  | .minCommitTs => 99
  | .asyncCommit => 97
  | .rollbackTs => 114
  | .lastChange => lastChangePrefix
  | .txnSource => 115
  | .pessimisticLockWithConflict => 70
  | .generation => 103

/-- All fields, in the order in which the parser compares the prefix. -/
def all : List LockTag :=
  [.shortValue, .forUpdateTs, .txnSize, .minCommitTs, .asyncCommit, .rollbackTs, .lastChange,
    .txnSource, .pessimisticLockWithConflict, .generation]

/-- The field a prefix stands for. -/
def ofU8 (b : UInt8) : Option LockTag := all.find? fun t => t.toU8 == b

theorem ofU8_eq_none {b : UInt8} (h : b ∉ all.map toU8) : ofU8 b = none := by
  rw [ofU8, find?_eq_none]
  intro t ht heq
  exact h (mem_map.mpr ⟨t, ht, beq_iff_eq.mp heq⟩)

end LockTag

open LockTag

/-- What `Lock::parse` has read of the fields. -/
structure LockFields where
  shortValue : Option Value := none
  forUpdateTs : ℕ := 0
  txnSize : ℕ := 0
  minCommitTs : ℕ := 0
  useAsyncCommit : Bool := false
  secondaries : List Bytes := []
  rollbackTs : List ℕ := []
  lastChangeTs : ℕ := 0
  estimatedVersionsToLastChange : ℕ := 0
  txnSource : ℕ := 0
  isLockedWithConflict : Bool := false
  generation : ℕ := 0

/-- How many secondary keys `Lock::parse` reads for a decoded length. The length is cast by
`as _`, and as the end of `0..len` it is an `i32`: it is truncated, and no key is read if that is
negative. -/
def secondariesToRead (len : ℕ) : ℕ := (BitVec.ofNat 32 len).toInt.toNat

theorem secondariesToRead_lt (len : ℕ) : secondariesToRead len < 2 ^ 31 := by
  have := BitVec.toInt_lt (x := BitVec.ofNat 32 len)
  rw [secondariesToRead]
  omega

theorem secondariesToRead_of_lt {len : ℕ} (h : len < 2 ^ 31) : secondariesToRead len = len := by
  rw [secondariesToRead, BitVec.toInt_ofNat', Int.bmod_eq_of_le (by omega) (by omega)]
  exact Int.toNat_natCast len

/-- Read one field. -/
def LockFields.read (f : LockFields) : LockTag → Parser LockFields
  | .shortValue => do
    let v ← readShortValue .codec
    return { f with shortValue := some v }
  | .forUpdateTs => do
    let ts ← decodeU64.orElse .codec
    return { f with forUpdateTs := ts }
  | .txnSize => do
    let size ← decodeU64.orElse .codec
    return { f with txnSize := size }
  | .minCommitTs => do
    let ts ← decodeU64.orElse .codec
    return { f with minCommitTs := ts }
  | .asyncCommit => do
    let len ← decodeVarU64.orElse .codec
    let secondaries ← (decodeCompactBytes.replicate (secondariesToRead len)).orElse .codec
    return { f with useAsyncCommit := true, secondaries := secondaries }
  | .rollbackTs => do
    let len ← decodeVarU64.orElse .codec
    let rollbackTs ← (decodeU64.replicate len).orElse .codec
    return { f with rollbackTs := rollbackTs }
  | .lastChange => do
    let (ts, versions) ← readParts
    return { f with lastChangeTs := ts, estimatedVersionsToLastChange := versions }
  | .txnSource => do
    let source ← decodeVarU64.orElse .codec
    return { f with txnSource := source }
  | .pessimisticLockWithConflict => return { f with isLockedWithConflict := true }
  | .generation => do
    let generation ← decodeU64.orElse .codec
    return { f with generation := generation }

/-- Every field takes bytes, or none. -/
theorem LockFields.read_shrinks (f : LockFields) (t : LockTag) : (f.read t).Shrinks := by
  have hu64 := decodeU64_shrinks.orElse .codec
  have hvar := decodeVarU64_shrinks.orElse .codec
  cases t with
  | shortValue => exact (readShortValue_shrinks _).bind fun _ => .pure _
  | forUpdateTs | txnSize | minCommitTs => exact hu64.bind fun _ => .pure _
  | asyncCommit =>
    exact hvar.bind fun _ =>
      ((decodeCompactBytes_shrinks.replicate _).orElse _).bind fun _ => .pure _
  | rollbackTs =>
    exact hvar.bind fun n => ((decodeU64_shrinks.replicate n).orElse _).bind fun _ => .pure _
  | lastChange => exact readParts_shrinks.bind fun _ => .pure _
  | txnSource => exact hvar.bind fun _ => .pure _
  | pessimisticLockWithConflict => exact .pure _
  | generation => exact hu64.bind fun _ => .pure _

/-- No field leaves more secondaries than an `i32` counts. -/
theorem LockFields.length_secondaries_read {f g : LockFields} {t : LockTag} {data rest : Bytes}
    (hf : f.secondaries.length < 2 ^ 31) (h : (f.read t).run data = .ok (g, rest)) :
    g.secondaries.length < 2 ^ 31 := by
  cases t with
  | asyncCommit =>
    obtain ⟨⟨n, mid⟩, -, h⟩ := bind_eq_ok.mp h
    obtain ⟨⟨keys, mid'⟩, hkeys, h⟩ := bind_eq_ok.mp h
    cases h
    rw [length_of_replicate_run (run_orElse_eq_ok.mp hkeys)]
    exact secondariesToRead_lt n
  | rollbackTs =>
    obtain ⟨_, -, h⟩ := bind_eq_ok.mp h
    obtain ⟨_, -, h⟩ := bind_eq_ok.mp h
    cases h
    exact hf
  | pessimisticLockWithConflict =>
    cases h
    exact hf
  | _ =>
    obtain ⟨_, -, h⟩ := bind_eq_ok.mp h
    cases h
    exact hf

/-- The loop of `Lock::parse`. -/
def lockFieldParser : FieldParser LockTag LockFields where
  tagOf := ofU8
  field := fun t f => f.read t
  shrinks := fun t f => f.read_shrinks t

theorem lockFieldParser_tagOf (t : LockTag) : lockFieldParser.tagOf t.toU8 = some t := by
  cases t <;> rfl

namespace Lock

/-! ### Writing and parsing -/

/-- The optional fields, each behind its tag, as `Lock::to_bytes` appends them. -/
def fieldBytes (l : Lock Bytes) : Bytes :=
  (match l.shortValue with
    | some v => LockTag.shortValue.toU8 :: encodeShortValue v
    | none => []) ++
  (if l.forUpdateTs ≠ 0 then LockTag.forUpdateTs.toU8 :: encodeU64 l.forUpdateTs else []) ++
  (if l.txnSize > 0 then LockTag.txnSize.toU8 :: encodeU64 l.txnSize else []) ++
  (if l.minCommitTs ≠ 0 then LockTag.minCommitTs.toU8 :: encodeU64 l.minCommitTs else []) ++
  (if l.useAsyncCommit then
    LockTag.asyncCommit.toU8 ::
      (encodeVarU64 l.secondaries.length ++ l.secondaries.flatMap encodeCompactBytes)
    else []) ++
  (if l.rollbackTs ≠ [] then
    LockTag.rollbackTs.toU8 ::
      (encodeVarU64 l.rollbackTs.length ++ l.rollbackTs.flatMap encodeU64)
    else []) ++
  (if l.lastChange ≠ .unknown then LockTag.lastChange.toU8 :: l.lastChange.encode else []) ++
  (if l.txnSource ≠ 0 then LockTag.txnSource.toU8 :: encodeVarU64 l.txnSource else []) ++
  (if l.isLockedWithConflict then [LockTag.pessimisticLockWithConflict.toU8] else []) ++
  (if l.generation > 0 then LockTag.generation.toU8 :: encodeU64 l.generation else [])

/-- `Lock::to_bytes`. -/
def toBytes (l : Lock Bytes) : Bytes :=
  [l.lockType.toU8] ++ encodeCompactBytes l.primary ++ encodeVarU64 l.ts ++ encodeVarU64 l.ttl ++
    l.fieldBytes

/-- `Lock::pre_allocate_size`. -/
def preAllocateSize (l : Lock Bytes) : ℕ :=
  1 + maxVarI64Len + l.primary.length + maxVarU64Len * 2 +
  (match l.shortValue with
    | some v => 2 + v.length
    | none => 0) +
  (if l.forUpdateTs ≠ 0 then 1 + u64Size else 0) +
  (if l.txnSize > 0 then 1 + u64Size else 0) +
  (if l.minCommitTs ≠ 0 then 1 + u64Size else 0) +
  (if l.useAsyncCommit then
    1 + maxVarU64Len + (l.secondaries.map fun k => maxVarI64Len + k.length).sum else 0) +
  (if l.rollbackTs ≠ [] then 1 + maxVarU64Len + u64Size * l.rollbackTs.length else 0) +
  (if l.lastChange ≠ .unknown then 1 + u64Size + maxVarU64Len else 0) +
  (if l.txnSource ≠ 0 then 1 + maxVarU64Len else 0) +
  (if l.isLockedWithConflict then 1 else 0) +
  (if l.generation > 0 then 1 + u64Size else 0)

/-- The header: type, primary key, start timestamp and time to live. An old record may end
before the time to live. -/
def parseHeader : Parser (LockType × Bytes × ℕ × ℕ) := do
  let flag ← readU8.orElse .codec
  match LockType.fromU8 flag with
  | none => throw .badFormatLock
  | some lockType => do
    let primary ← decodeCompactBytes.orElse .codec
    let ts ← decodeVarU64.orElse .codec
    let b ← get
    let ttl ← if b.isEmpty then pure 0 else decodeVarU64.orElse .codec
    return (lockType, primary, ts, ttl)

/-- The lock made of the header and the fields, at the end of `Lock::parse`. -/
def assemble (lockType : LockType) (primary : Bytes) (ts ttl : ℕ) (f : LockFields) :
    Except RecordError (Lock Bytes) :=
  match fromParts f.lastChangeTs f.estimatedVersionsToLastChange with
  | .error p => .error (.panic p)
  | .ok lastChange =>
    .ok
      { lockType, primary, ts, ttl
        shortValue := f.shortValue
        forUpdateTs := f.forUpdateTs
        txnSize := f.txnSize
        minCommitTs := f.minCommitTs
        useAsyncCommit := f.useAsyncCommit
        secondaries := if f.useAsyncCommit then f.secondaries else []
        rollbackTs := f.rollbackTs
        lastChange
        txnSource := f.txnSource
        isLockedWithConflict := f.isLockedWithConflict
        generation := f.generation }

/-- `Lock::parse`. -/
def parse (b : Bytes) : Except RecordError (Lock Bytes) :=
  if b.isEmpty then .error .badFormatLock
  else do
    let ((lockType, primary, ts, ttl), b) ← parseHeader.run b
    if b.isEmpty then .ok { lockType, primary, ts, ttl }
    else do
      let f ← lockFieldParser.run {} b
      assemble lockType primary ts ttl f

/-! ### The locks the format can hold -/

/-- A lock that can be written: its numbers are 64-bit numbers, its vectors have lengths a vector
can have, and it has none of the values that only a lock in memory has. -/
structure Encodable (l : Lock Bytes) : Prop where
  primary : l.primary.length < 2 ^ 63
  ts : l.ts < 2 ^ 64
  ttl : l.ttl < 2 ^ 64
  shortValue : ∀ v ∈ l.shortValue, v.length ≤ shortValueMaxLen
  forUpdateTs : l.forUpdateTs < 2 ^ 64
  txnSize : l.txnSize < 2 ^ 64
  minCommitTs : l.minCommitTs < 2 ^ 64
  useOnePc : l.useOnePc = false
  secondaries_eq : l.useAsyncCommit = false → l.secondaries = []
  length_secondaries : l.secondaries.length < 2 ^ 63
  secondaries : ∀ k ∈ l.secondaries, k.length < 2 ^ 63
  length_rollbackTs : l.rollbackTs.length < 2 ^ 63
  rollbackTs : ∀ ts ∈ l.rollbackTs, ts < 2 ^ 64
  lastChange : l.lastChange.Storable
  txnSource : l.txnSource < 2 ^ 64
  generation : l.generation < 2 ^ 64

variable {l : Lock Bytes}

/-- What the parser is to read of the fields of a lock. -/
def fields (l : Lock Bytes) : LockFields where
  shortValue := l.shortValue
  forUpdateTs := l.forUpdateTs
  txnSize := l.txnSize
  minCommitTs := l.minCommitTs
  useAsyncCommit := l.useAsyncCommit
  secondaries := l.secondaries
  rollbackTs := l.rollbackTs
  lastChangeTs := l.lastChange.toParts.1
  estimatedVersionsToLastChange := l.lastChange.toParts.2
  txnSource := l.txnSource
  isLockedWithConflict := l.isLockedWithConflict
  generation := l.generation

/-! ### Parsing what was written -/

section

variable (h : l.Encodable)
include h

/-- The header is read back. -/
theorem parseHeader_run (rest : Bytes) :
    parseHeader.run ([l.lockType.toU8] ++ (encodeCompactBytes l.primary ++
      (encodeVarU64 l.ts ++ (encodeVarU64 l.ttl ++ rest)))) =
      .ok ((l.lockType, l.primary, l.ts, l.ttl), rest) := by
  have hprimary := decodeCompactBytes_encodeCompactBytes h.primary
    (encodeVarU64 l.ts ++ (encodeVarU64 l.ttl ++ rest))
  have hts := decodeVarU64_encodeVarU64 h.ts (encodeVarU64 l.ttl ++ rest)
  have httl := decodeVarU64_encodeVarU64 h.ttl rest
  have hne : (encodeVarU64 l.ttl ++ rest).isEmpty = false := by
    have := length_encodeVarU64_pos l.ttl
    rw [isEmpty_eq_false_iff]
    intro hnil
    rw [(append_eq_nil_iff.mp hnil).1] at this
    exact absurd this (lt_irrefl 0)
  have hflag : (readU8.orElse .codec).run ([l.lockType.toU8] ++ (encodeCompactBytes l.primary ++
      (encodeVarU64 l.ts ++ (encodeVarU64 l.ttl ++ rest)))) =
      .ok (l.lockType.toU8, encodeCompactBytes l.primary ++
        (encodeVarU64 l.ts ++ (encodeVarU64 l.ttl ++ rest))) := rfl
  have hget : (get : Parser Bytes).run (encodeVarU64 l.ttl ++ rest) = .ok (_, _) := rfl
  rw [parseHeader, Parser.run_bind_of_ok hflag, LockType.fromU8_toU8]
  rw [Parser.run_bind_of_ok (run_orElse_of_ok hprimary),
    Parser.run_bind_of_ok (run_orElse_of_ok hts), Parser.run_bind_of_ok hget, hne,
    if_neg Bool.false_ne_true]
  exact Parser.run_map_of_ok (run_orElse_of_ok httl) _

variable {f : LockFields}

omit h in
/-- A field with a number of eight bytes, left out if the number is zero. -/
theorem run_u64 {t : LockTag} {g : LockFields → ℕ → LockFields} {v : ℕ} {c : Prop} [Decidable c]
    (hread : ∀ f, f.read t = decodeU64.orElse .codec >>= fun v => pure (g f v))
    (hc : ¬ c → g f v = f) (hv : v < 2 ^ 64) (rest : Bytes) :
    lockFieldParser.run f ((if c then t.toU8 :: encodeU64 v else []) ++ rest) =
      lockFieldParser.run (g f v) rest := by
  exact lockFieldParser.run_value (lockFieldParser_tagOf t) hread hc
    (run_orElse_of_ok (decodeU64_encodeU64 hv rest))

theorem run_shortValue (rest : Bytes) :
    lockFieldParser.run {} ((match l.shortValue with
      | some v => LockTag.shortValue.toU8 :: encodeShortValue v
      | none => []) ++ rest) = lockFieldParser.run { shortValue := l.shortValue } rest := by
  cases hv : l.shortValue with
  | none => rfl
  | some v =>
    exact lockFieldParser.run_field (lockFieldParser_tagOf .shortValue)
      (Parser.run_map_of_ok (readShortValue_run (h.shortValue v hv) _ rest) _)

omit h in
theorem read_asyncCommit_run {n : ℕ} {keys : List Bytes} (hn : n < 2 ^ 64)
    (hlen : secondariesToRead n = keys.length) (hkeys : ∀ k ∈ keys, k.length < 2 ^ 63)
    (rest : Bytes) :
    (f.read .asyncCommit).run (encodeVarU64 n ++ (keys.flatMap encodeCompactBytes ++ rest)) =
      .ok ({ f with useAsyncCommit := true, secondaries := keys }, rest) := by
  have hread := replicate_run (d := decodeCompactBytes) (fun k hk =>
    decodeCompactBytes_encodeCompactBytes (hkeys k hk)) rest
  rw [LockFields.read, Parser.run_bind_of_ok (run_orElse_of_ok (decodeVarU64_encodeVarU64 hn _)),
    hlen]
  exact Parser.run_map_of_ok (run_orElse_of_ok hread) _

theorem run_asyncCommit (hlen : l.secondaries.length < 2 ^ 31) (hf : f.useAsyncCommit = false)
    (hs : f.secondaries = []) (rest : Bytes) :
    lockFieldParser.run f ((if l.useAsyncCommit then
      asyncCommit.toU8 ::
        (encodeVarU64 l.secondaries.length ++ l.secondaries.flatMap encodeCompactBytes)
      else []) ++ rest) =
    lockFieldParser.run
      { f with useAsyncCommit := l.useAsyncCommit, secondaries := l.secondaries } rest := by
  apply lockFieldParser.run_optional (lockFieldParser_tagOf .asyncCommit)
  · intro habsent
    have hfalse : l.useAsyncCommit = false := Bool.eq_false_iff.mpr habsent
    rw [hfalse, h.secondaries_eq hfalse, ← hf, ← hs]
  · intro huse
    rw [append_assoc, huse]
    exact read_asyncCommit_run (hlen.trans (by norm_num)) (secondariesToRead_of_lt hlen)
      h.secondaries rest

/-- The rollback timestamps are read back. -/
theorem run_rollbackTs (hf : f.rollbackTs = []) (rest : Bytes) :
    lockFieldParser.run f ((if l.rollbackTs ≠ [] then
      LockTag.rollbackTs.toU8 ::
        (encodeVarU64 l.rollbackTs.length ++ l.rollbackTs.flatMap encodeU64)
      else []) ++ rest) =
    lockFieldParser.run { f with rollbackTs := l.rollbackTs } rest := by
  apply lockFieldParser.run_optional (lockFieldParser_tagOf .rollbackTs)
  · intro habsent
    rw [not_not.mp habsent, ← hf]
  · intro _
    have hlen := decodeVarU64_encodeVarU64 (v := l.rollbackTs.length)
      (h.length_rollbackTs.trans (by norm_num)) (l.rollbackTs.flatMap encodeU64 ++ rest)
    have hts := replicate_run (d := decodeU64) (fun ts hts =>
      decodeU64_encodeU64 (h.rollbackTs ts hts)) rest
    rw [append_assoc]
    change (f.read .rollbackTs).run _ = _
    rw [LockFields.read, Parser.run_bind_of_ok (run_orElse_of_ok hlen)]
    exact Parser.run_map_of_ok (run_orElse_of_ok hts) _

omit h in
theorem run_isLockedWithConflict (hf : f.isLockedWithConflict = false) (rest : Bytes) :
    lockFieldParser.run f ((if l.isLockedWithConflict then
      [pessimisticLockWithConflict.toU8] else []) ++ rest) =
    lockFieldParser.run { f with isLockedWithConflict := l.isLockedWithConflict } rest := by
  apply lockFieldParser.run_optional (lockFieldParser_tagOf .pessimisticLockWithConflict)
  · intro habsent
    rw [Bool.eq_false_iff.mpr habsent, ← hf]
  · intro hset
    rw [hset]
    rfl

/-- The parser reads back all fields, one after the other. -/
theorem run_fieldBytes (hlen : l.secondaries.length < 2 ^ 31) (rest : Bytes) :
    lockFieldParser.run {} (l.fieldBytes ++ rest) = lockFieldParser.run l.fields rest := by
  simp only [fieldBytes, append_assoc]
  -- The updates of the record are put together now and then; nested, they grow quickly.
  rw [run_shortValue h,
    run_u64 (t := .forUpdateTs) (g := fun f v => { f with forUpdateTs := v }) (fun _ => rfl)
      (fun hc => by rw [not_not.mp hc]) h.forUpdateTs,
    run_u64 (t := .txnSize) (g := fun f v => { f with txnSize := v }) (fun _ => rfl)
      (fun hc => by rw [Nat.eq_zero_of_not_pos hc]) h.txnSize,
    run_u64 (t := .minCommitTs) (g := fun f v => { f with minCommitTs := v }) (fun _ => rfl)
      (fun hc => by rw [not_not.mp hc]) h.minCommitTs]
  dsimp only
  rw [run_asyncCommit h hlen rfl rfl, run_rollbackTs h rfl,
    lockFieldParser.run_value (lockFieldParser_tagOf .lastChange) (g := fun f parts =>
        { f with lastChangeTs := parts.1, estimatedVersionsToLastChange := parts.2 })
      (fun _ => rfl) (fun hc => by rw [not_not.mp hc]; rfl)
      (readParts_run h.lastChange _)]
  dsimp only
  rw [lockFieldParser.run_value (lockFieldParser_tagOf .txnSource)
      (g := fun f v => { f with txnSource := v }) (fun _ => rfl) (fun hc => by rw [not_not.mp hc])
      (run_orElse_of_ok (decodeVarU64_encodeVarU64 h.txnSource _)),
    run_isLockedWithConflict rfl]
  rw [run_u64 (t := .generation) (g := fun f v => { f with generation := v }) (fun _ => rfl)
    (fun hc => by rw [Nat.eq_zero_of_not_pos hc]) h.generation]
  rfl

/-- The fields of a lock make the lock. -/
theorem assemble_fields :
    assemble l.lockType l.primary l.ts l.ttl l.fields = .ok l := by
  have hchange : fromParts l.fields.lastChangeTs
      l.fields.estimatedVersionsToLastChange = .ok l.lastChange :=
    fromParts_toParts h.lastChange
  have hsecondaries : (if l.fields.useAsyncCommit then l.fields.secondaries else []) =
      l.secondaries := by
    change (if l.useAsyncCommit then l.secondaries else []) = l.secondaries
    cases huse : l.useAsyncCommit with
    | true => rfl
    | false => exact (h.secondaries_eq huse).symm
  rw [assemble, hchange]
  rw [hsecondaries, ← h.useOnePc]
  rfl

/-- Behind the header a lock is what the loop makes of its fields. -/
theorem parse_toBytes_of_run {trailing : Bytes}
    (hloop : lockFieldParser.run {} (l.fieldBytes ++ trailing) = .ok f) :
    parse (l.toBytes ++ trailing) = assemble l.lockType l.primary l.ts l.ttl f := by
  have hheader := parseHeader_run h (l.fieldBytes ++ trailing)
  simp only [toBytes, append_assoc]
  rw [parse, if_neg (by simp), hheader, ok_bind]
  dsimp only
  split
  · -- No field was written: the lock is the one with nothing but a header.
    rename_i hempty
    rw [isEmpty_iff.mp hempty, FieldParser.run] at hloop
    cases hloop
    rfl
  · rw [hloop, ok_bind]

/-- A written lock is parsed back, also if the bytes go on with something the parser does not
know. -/
theorem parse_toBytes_append (hlen : l.secondaries.length < 2 ^ 31) (trailing : Bytes)
    (htrailing : ∀ b ∈ trailing.head?, b ∉ all.map toU8) :
    parse (l.toBytes ++ trailing) = .ok l := by
  rw [parse_toBytes_of_run h (f := l.fields), assemble_fields h]
  rw [run_fieldBytes h hlen, lockFieldParser.run_of_unknown]
  intro tag ht
  exact ofU8_eq_none (htrailing tag ht)

end

/-- No bytes are parsed into a lock with `2 ^ 31` secondary keys or more. -/
theorem length_secondaries_of_parse {b : Bytes} (h : parse b = .ok l) :
    l.secondaries.length < 2 ^ 31 := by
  rw [parse] at h
  split_ifs at h
  obtain ⟨⟨⟨lockType, primary, ts, ttl⟩, b'⟩, -, h⟩ := bind_eq_ok.mp h
  dsimp only at h
  split_ifs at h
  · cases h
    norm_num
  · obtain ⟨f, hf, h⟩ := bind_eq_ok.mp h
    have hlen := lockFieldParser.run_invariant (P := fun f => f.secondaries.length < 2 ^ 31)
      (fun _ _ _ _ _ hf h => LockFields.length_secondaries_read hf h) (by norm_num) hf
    rw [assemble] at h
    split at h
    · cases h
    · cases h
      dsimp only
      split_ifs
      · exact hlen
      · norm_num

/-! ### The allocated size -/

theorem length_flatMap_encodeU64 (l : List ℕ) :
    (l.flatMap encodeU64).length = u64Size * l.length := by
  induction l with
  | nil => rfl
  | cons v l ih =>
    rw [flatMap_cons, length_append, length_encodeU64, ih, length_cons, u64Size]
    omega

/-- `pre_allocate_size` counts enough for every field. -/
theorem length_toBytes_le (h : l.Encodable) : l.toBytes.length ≤ l.preAllocateSize := by
  have hprimary := length_encodeCompactBytes l.primary
  have hts := length_encodeVarU64 h.ts
  have httl := length_encodeVarU64 h.ttl
  have hu64 : ∀ v, (encodeU64 v).length ≤ u64Size := fun v => (length_encodeU64 v).le
  have hlen := length_encodeVarU64 (h.length_secondaries.trans (by norm_num))
  have hlen' := length_encodeVarU64 (h.length_rollbackTs.trans (by norm_num))
  simp only [toBytes, fieldBytes, length_append, ← Nat.add_assoc]
  refine Nat.add_le_add (Nat.add_le_add (Nat.add_le_add (Nat.add_le_add (Nat.add_le_add
    (Nat.add_le_add (Nat.add_le_add (Nat.add_le_add (Nat.add_le_add (Nat.add_le_add
    ?_ ?_) ?_) ?_) ?_) ?_) ?_) ?_) ?_) ?_) ?_
  · rw [length_singleton]
    omega
  · cases l.shortValue with
    | none => exact Nat.le_refl _
    | some v =>
      simp only [encodeShortValue, length_cons]
      omega
  · exact length_optional_le fun _ => hu64 _
  · exact length_optional_le fun _ => hu64 _
  · exact length_optional_le fun _ => hu64 _
  · rw [Nat.add_assoc]
    apply length_optional_le
    intro _
    rw [length_append, length_flatMap]
    exact Nat.add_le_add hlen (sum_le_sum fun k _ => length_encodeCompactBytes k)
  · rw [Nat.add_assoc]
    apply length_optional_le
    intro _
    rw [length_append, length_flatMap_encodeU64]
    exact Nat.add_le_add_right hlen' _
  · rw [Nat.add_assoc]
    exact length_optional_le fun _ => length_encode h.lastChange
  · exact length_optional_le fun _ => length_encodeVarU64 h.txnSource
  · exact length_optional_le (n := 0) fun _ => Nat.le_refl 0
  · exact length_optional_le fun _ => hu64 _

/-! ### The codec -/

/-- The lock codec: what is written is parsed back, also before bytes a newer version may have
appended, exactly if it has fewer than `2 ^ 31` secondary keys, and it fits the buffer that was
allocated for it. -/
theorem lock_codec (h : l.Encodable) :
    (parse l.toBytes = .ok l ↔ l.secondaries.length < 2 ^ 31) ∧
    (∀ trailing : Bytes, (∀ b ∈ trailing.head?, b ∉ all.map toU8) →
      (parse (l.toBytes ++ trailing) = .ok l ↔ l.secondaries.length < 2 ^ 31)) ∧
    l.toBytes.length ≤ l.preAllocateSize := by
  refine ⟨⟨length_secondaries_of_parse, ?_⟩, ?_, length_toBytes_le h⟩
  · intro hlen
    have := parse_toBytes_append h hlen [] (by simp)
    rwa [append_nil] at this
  · intro trailing htrailing
    exact ⟨length_secondaries_of_parse, fun hlen => parse_toBytes_append h hlen _ htrailing⟩

/-- A lock of an async-commit transaction with every field set. -/
theorem lock_codec_allFields :
    let l : Lock Bytes :=
      { lockType := .put, primary := [112, 107], ts := 1, ttl := 10, shortValue := some [118]
        forUpdateTs := 10, txnSize := 16, minCommitTs := 20, useAsyncCommit := true
        secondaries := [[], [107, 49]], rollbackTs := [12, 24], lastChange := .exist 8 2
        txnSource := 1, isLockedWithConflict := true, generation := 3 }
    parse l.toBytes = .ok l :=
  (lock_codec
    { primary := by decide, ts := by decide, ttl := by decide
      shortValue := by intro v hv; cases hv; decide
      forUpdateTs := by decide, txnSize := by decide, minCommitTs := by decide
      useOnePc := rfl, secondaries_eq := by decide
      length_secondaries := by decide, secondaries := by decide
      length_rollbackTs := by decide, rollbackTs := by decide
      lastChange := by refine ⟨⟨?_, ?_⟩, ?_, ?_⟩ <;> decide
      txnSource := by decide, generation := by decide }).1.mpr (by decide)

/-- An async-commit lock with nothing but secondary keys. -/
def ofSecondaries (keys : List Bytes) : Lock Bytes :=
  { lockType := .put, primary := [112, 107], ts := 1, ttl := 10, useAsyncCommit := true
    secondaries := keys }

section

variable {keys : List Bytes} (hlen : keys.length = 2 ^ 31) (hnil : ∀ k ∈ keys, k = [])
include hlen hnil

/-- Any number of secondaries can be encoded. -/
theorem encodable_ofSecondaries : (ofSecondaries keys).Encodable where
  primary := by norm_num [ofSecondaries]
  ts := by norm_num [ofSecondaries]
  ttl := by norm_num [ofSecondaries]
  shortValue := by
    intro v hv
    cases hv
  forUpdateTs := Nat.two_pow_pos 64
  txnSize := Nat.two_pow_pos 64
  minCommitTs := Nat.two_pow_pos 64
  useOnePc := rfl
  secondaries_eq := by
    intro huse
    cases huse
  length_secondaries := hlen.trans_lt (by norm_num)
  secondaries := by
    intro k hk
    rw [hnil k hk]
    exact Nat.two_pow_pos 63
  length_rollbackTs := Nat.two_pow_pos 63
  rollbackTs := by
    intro ts hts
    cases hts
  lastChange := trivial
  txnSource := Nat.two_pow_pos 64
  generation := Nat.two_pow_pos 64

/-- The length of `2 ^ 31` keys is read as a negative number. No key is read, and the first byte
of the first key, a zero, ends the record. -/
theorem parse_ofSecondaries : parse (ofSecondaries keys).toBytes = .ok (ofSecondaries []) := by
  have hfields : (ofSecondaries keys).fieldBytes = LockTag.asyncCommit.toU8 ::
      (encodeVarU64 keys.length ++ (([] : List Bytes).flatMap encodeCompactBytes ++
        keys.flatMap encodeCompactBytes)) := by
    simp [fieldBytes, ofSecondaries]
  have hrun : lockFieldParser.run {} ((ofSecondaries keys).fieldBytes ++ []) =
      .ok { useAsyncCommit := true, secondaries := [] } := by
    rw [append_nil, hfields, lockFieldParser.run_field (lockFieldParser_tagOf .asyncCommit)
      (read_asyncCommit_run (by rw [hlen]; norm_num) (by rw [hlen]; decide) (by simp) _)]
    apply lockFieldParser.run_of_unknown
    intro tag htag
    obtain ⟨k, hk, htag⟩ := mem_flatMap.mp (mem_of_mem_head? htag)
    have hzero : encodeCompactBytes [] = [0] :=
      (append_nil _).trans (encodeVarU64_of_lt (v := 0) (by decide))
    rw [hnil k hk, hzero, mem_singleton] at htag
    rw [htag]
    rfl
  have := parse_toBytes_of_run (encodable_ofSecondaries hlen hnil) hrun
  rwa [append_nil] at this

end

/-- A lock with `2 ^ 31` secondary keys, all of them empty, is parsed as one without secondary
keys. -/
theorem lock_codec_manySecondaries :
    let l := ofSecondaries (List.replicate (2 ^ 31) [])
    l.Encodable ∧ parse l.toBytes = .ok { l with secondaries := [] } :=
  have hnil k (hk : k ∈ List.replicate (2 ^ 31) ([] : Bytes)) : k = [] := eq_of_mem_replicate hk
  ⟨encodable_ofSecondaries length_replicate hnil, parse_ofSecondaries length_replicate hnil⟩

end Lock

end Tikv
