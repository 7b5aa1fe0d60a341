import Tikv.Codec.Record

/-!
# The write record

`WriteRef::to_bytes` and `WriteRef::parse`, the format of the write CF. The type and the start
timestamp come first; the timestamp is read by the varint decoder of the `codec` crate although
`tikv_util` has written it. Five optional fields follow. The tag of an overlapped rollback is the
letter that also stands for the type Rollback; the two are never mixed up, since the type is the
first byte and a tag is only looked for behind a complete field.

A borrowed `WriteRef` and an owned `Write` have the same fields and are one type here.
-/

namespace Tikv

open Codec LastChange

/-! ### The header -/

/-- `WriteType::to_u8`: the letters `P`, `D`, `L` and `R`. -/
def WriteType.toU8 : WriteType → UInt8
  | .put => 80
  | .delete => 68
  | .lock => 76
  | .rollback => 82

/-- `WriteType::from_u8`. -/
def WriteType.fromU8 (b : UInt8) : Option WriteType :=
  if b = 80 then some .put
  else if b = 68 then some .delete
  else if b = 76 then some .lock
  else if b = 82 then some .rollback
  else none

theorem WriteType.fromU8_toU8 (t : WriteType) : fromU8 t.toU8 = some t := by
  cases t <;> rfl

/-! ### The fields -/

/-- The optional fields of a write record. -/
inductive WriteTag
  | shortValue
  | overlappedRollback
  | gcFence
  | lastChange
  | txnSource
  deriving DecidableEq

namespace WriteTag

/-- The prefix of a field: `v`, `R`, `F`, `l` and `S`. -/
def toU8 : WriteTag → UInt8
  | .shortValue => shortValuePrefix
  | .overlappedRollback => 82
  | .gcFence => 70
  | .lastChange => lastChangePrefix
  | .txnSource => 83

/-- All fields, in the order in which the parser compares the prefix. -/
def all : List WriteTag := [.shortValue, .overlappedRollback, .gcFence, .lastChange, .txnSource]

/-- The field a prefix stands for. -/
def ofU8 (b : UInt8) : Option WriteTag := all.find? fun t => t.toU8 == b

theorem ofU8_eq_none {b : UInt8} (h : b ∉ all.map toU8) : ofU8 b = none := by
  rw [ofU8, List.find?_eq_none]
  intro t ht heq
  exact h (List.mem_map.mpr ⟨t, ht, beq_iff_eq.mp heq⟩)

end WriteTag

open WriteTag

/-- What `WriteRef::parse` has read of the fields. -/
structure WriteFields where
  shortValue : Option Value := none
  hasOverlappedRollback : Bool := false
  gcFence : Option ℕ := none
  lastChangeTs : ℕ := 0
  estimatedVersionsToLastChange : ℕ := 0
  txnSource : ℕ := 0

/-- Read one field. -/
def WriteFields.read (f : WriteFields) : WriteTag → Parser WriteFields
  | .shortValue => do
    let v ← readShortValue fun _ => .badFormatWrite
    return { f with shortValue := some v }
  | .overlappedRollback => return { f with hasOverlappedRollback := true }
  | .gcFence => do
    let ts ← decodeU64.orElse .codec
    return { f with gcFence := some ts }
  | .lastChange => do
    let (ts, versions) ← readParts
    return { f with lastChangeTs := ts, estimatedVersionsToLastChange := versions }
  | .txnSource => do
    let source ← decodeVarU64.orElse .codec
    return { f with txnSource := source }

theorem WriteFields.read_shrinks (f : WriteFields) (t : WriteTag) : (f.read t).Shrinks := by
  cases t with
  | shortValue => exact (readShortValue_shrinks _).bind fun _ => .pure _
  | overlappedRollback => exact .pure _
  | gcFence => exact (decodeU64_shrinks.orElse _).bind fun _ => .pure _
  | lastChange => exact readParts_shrinks.bind fun _ => .pure _
  | txnSource => exact (decodeVarU64_shrinks.orElse _).bind fun _ => .pure _

/-- The loop of `WriteRef::parse`. -/
def writeFieldParser : FieldParser WriteTag WriteFields where
  tagOf := ofU8
  field := fun t f => f.read t
  shrinks := fun t f => f.read_shrinks t

theorem writeFieldParser_tagOf (t : WriteTag) : writeFieldParser.tagOf t.toU8 = some t := by
  cases t <;> rfl

namespace Write

/-! ### Writing and parsing -/

/-- `WriteRef::to_bytes`. -/
def toBytes (w : Write) : Bytes :=
  [w.writeType.toU8] ++ encodeVarU64 w.startTs ++
  (match w.shortValue with
    | some v => WriteTag.shortValue.toU8 :: encodeShortValue v
    | none => []) ++
  (if w.hasOverlappedRollback then [WriteTag.overlappedRollback.toU8] else []) ++
  (match w.gcFence with
    | some ts => WriteTag.gcFence.toU8 :: encodeU64 ts
    | none => []) ++
  (if w.lastChange ≠ .unknown then WriteTag.lastChange.toU8 :: w.lastChange.encode else []) ++
  (if w.txnSource ≠ 0 then WriteTag.txnSource.toU8 :: encodeVarU64 w.txnSource else [])

/-- `WriteRef::pre_allocate_size`. -/
def preAllocateSize (w : Write) : ℕ :=
  1 + maxVarU64Len + (if w.hasOverlappedRollback then 1 else 0) +
  (match w.shortValue with
    | some v => 2 + v.length
    | none => 0) +
  (if w.gcFence.isSome then 1 + u64Size else 0) +
  (if w.lastChange ≠ .unknown then 1 + u64Size + maxVarU64Len else 0) +
  (if w.txnSource ≠ 0 then 1 + maxVarU64Len else 0)

/-- The type and the start timestamp, which `codec::NumberDecoder` reads. -/
def parseHeader : Parser (WriteType × ℕ) := do
  let flag ← readU8.orElse fun _ => .badFormatWrite
  match WriteType.fromU8 flag with
  | none => throw .badFormatWrite
  | some writeType => do
    let startTs ← tryDecodeVarU64.orElse fun _ => .badFormatWrite
    return (writeType, startTs)

/-- `WriteRef::parse`. -/
def parse (b : Bytes) : Except RecordError Write := do
  let ((writeType, startTs), b) ← parseHeader.run b
  let f ← writeFieldParser.run {} b
  match fromParts f.lastChangeTs f.estimatedVersionsToLastChange with
  | .error p => .error (.panic p)
  | .ok lastChange =>
    .ok
      { writeType, startTs
        shortValue := f.shortValue
        hasOverlappedRollback := f.hasOverlappedRollback
        gcFence := f.gcFence
        lastChange
        txnSource := f.txnSource }

/-- `Write::parse_type`. -/
def parseType : Bytes → Except RecordError WriteType
  | [] => .error .badFormatWrite
  | b :: _ =>
    match WriteType.fromU8 b with
    | none => .error .badFormatWrite
    | some writeType => .ok writeType

/-! ### The records the format can hold -/

/-- A record that can be written: its numbers are 64-bit numbers and its short value is short. -/
structure Encodable (w : Write) : Prop where
  startTs : w.startTs < 2 ^ 64
  shortValue : ∀ v ∈ w.shortValue, v.length ≤ shortValueMaxLen
  gcFence : ∀ ts ∈ w.gcFence, ts < 2 ^ 64
  lastChange : w.lastChange.Storable
  txnSource : w.txnSource < 2 ^ 64

variable {w : Write}

/-- What the parser is to read of the fields of a record. -/
def fields (w : Write) : WriteFields where
  shortValue := w.shortValue
  hasOverlappedRollback := w.hasOverlappedRollback
  gcFence := w.gcFence
  lastChangeTs := w.lastChange.toParts.1
  estimatedVersionsToLastChange := w.lastChange.toParts.2
  txnSource := w.txnSource

/-! ### Parsing what was written -/

section

variable (h : w.Encodable)
include h

theorem parseHeader_run (rest : Bytes) :
    parseHeader.run ([w.writeType.toU8] ++ (encodeVarU64 w.startTs ++ rest)) =
      .ok ((w.writeType, w.startTs), rest) := by
  have hflag : (readU8.orElse fun _ => .badFormatWrite).run
      ([w.writeType.toU8] ++ (encodeVarU64 w.startTs ++ rest)) =
      .ok (w.writeType.toU8, encodeVarU64 w.startTs ++ rest) := rfl
  have hts := tryDecodeVarU64_encodeVarU64 h.startTs rest
  rw [parseHeader, Parser.run_bind_of_ok hflag, WriteType.fromU8_toU8]
  exact Parser.run_map_of_ok (Decoder.run_orElse_of_ok hts) _

theorem run_shortValue (rest : Bytes) :
    writeFieldParser.run {} ((match w.shortValue with
      | some v => WriteTag.shortValue.toU8 :: encodeShortValue v
      | none => []) ++ rest) = writeFieldParser.run { shortValue := w.shortValue } rest := by
  cases hv : w.shortValue with
  | none => rfl
  | some v =>
    exact writeFieldParser.run_field (writeFieldParser_tagOf .shortValue)
      (Parser.run_map_of_ok (readShortValue_run (h.shortValue v hv) _ rest) _)

variable {f : WriteFields}

omit h in
theorem run_overlappedRollback (hf : f.hasOverlappedRollback = false) (rest : Bytes) :
    writeFieldParser.run f ((if w.hasOverlappedRollback then
      [overlappedRollback.toU8] else []) ++ rest) =
    writeFieldParser.run { f with hasOverlappedRollback := w.hasOverlappedRollback } rest := by
  apply writeFieldParser.run_optional (writeFieldParser_tagOf .overlappedRollback)
  · intro habsent
    rw [Bool.eq_false_iff.mpr habsent, ← hf]
  · intro hset
    rw [hset]
    rfl

theorem run_gcFence (hf : f.gcFence = none) (rest : Bytes) :
    writeFieldParser.run f ((match w.gcFence with
      | some ts => WriteTag.gcFence.toU8 :: encodeU64 ts
      | none => []) ++ rest) = writeFieldParser.run { f with gcFence := w.gcFence } rest := by
  cases hts : w.gcFence with
  | none =>
    obtain ⟨⟩ := f
    subst hf
    rfl
  | some ts =>
    exact writeFieldParser.run_field (writeFieldParser_tagOf .gcFence)
      (Parser.run_map_of_ok
        (Decoder.run_orElse_of_ok (decodeU64_encodeU64 (h.gcFence ts hts) rest)) _)

/-- A written record is parsed back, also if the bytes go on with something the parser does not
know. -/
theorem parse_toBytes_append (trailing : Bytes)
    (htrailing : ∀ b ∈ trailing.head?, b ∉ WriteTag.all.map WriteTag.toU8) :
    parse (w.toBytes ++ trailing) = .ok w := by
  have hchange : fromParts w.fields.lastChangeTs
      w.fields.estimatedVersionsToLastChange = .ok w.lastChange :=
    fromParts_toParts h.lastChange
  have hend : writeFieldParser.run w.fields trailing = .ok w.fields := by
    apply writeFieldParser.run_of_unknown
    intro tag ht
    exact WriteTag.ofU8_eq_none (htrailing tag ht)
  simp only [toBytes, List.append_assoc]
  rw [parse, parseHeader_run h, ok_bind]
  dsimp only
  rw [run_shortValue h, run_overlappedRollback rfl, run_gcFence h rfl,
    writeFieldParser.run_value (writeFieldParser_tagOf .lastChange) (g := fun f parts =>
        { f with lastChangeTs := parts.1, estimatedVersionsToLastChange := parts.2 })
      (fun _ => rfl) (fun hc => by rw [not_not.mp hc]; rfl)
      (readParts_run h.lastChange _),
    writeFieldParser.run_value (writeFieldParser_tagOf .txnSource)
      (g := fun f v => { f with txnSource := v }) (fun _ => rfl) (fun hc => by rw [not_not.mp hc])
      (Decoder.run_orElse_of_ok (decodeVarU64_encodeVarU64 h.txnSource _))]
  change writeFieldParser.run w.fields trailing >>= _ = _
  rw [hend, ok_bind, hchange]
  rfl

omit h in
theorem parseType_toBytes_append (w : Write) (trailing : Bytes) :
    parseType (w.toBytes ++ trailing) = .ok w.writeType := by
  change (match WriteType.fromU8 w.writeType.toU8 with | none => _ | some t => _) = _
  rw [WriteType.fromU8_toU8]

/-! ### The allocated size -/

/-- `pre_allocate_size` counts enough for every field. -/
theorem length_toBytes_le : w.toBytes.length ≤ w.preAllocateSize := by
  simp only [toBytes, List.length_append]
  refine Nat.add_le_add (Nat.add_le_add (Nat.add_le_add ?_ ?_) ?_) ?_
  · rw [Nat.add_right_comm]
    have hts := length_encodeVarU64 h.startTs
    refine Nat.add_le_add (Nat.add_le_add (Nat.add_le_add_left hts 1) ?_) ?_
    · exact length_optional_le (n := 0) fun _ => Nat.le_refl 0
    · cases w.shortValue with
      | none => exact Nat.le_refl _
      | some v =>
        simp only [encodeShortValue, List.length_cons]
        omega
  · cases w.gcFence with
    | none => exact Nat.le_refl _
    | some ts => simp [u64Size]
  · exact length_optional_le fun _ => length_encode h.lastChange
  · exact length_optional_le fun _ => length_encodeVarU64 h.txnSource

end

/-! ### The codec -/

/-- The write codec: what is written is parsed back, its type is what `parse_type` tells, both
also before bytes a newer version may have appended, and it fits the buffer that was allocated
for it. -/
theorem write_codec (h : w.Encodable) :
    parse w.toBytes = .ok w ∧ parseType w.toBytes = .ok w.writeType ∧
    (∀ trailing : Bytes, (∀ b ∈ trailing.head?, b ∉ all.map toU8) →
      parse (w.toBytes ++ trailing) = .ok w) ∧
    w.toBytes.length ≤ w.preAllocateSize := by
  refine ⟨?_, ?_, parse_toBytes_append h, length_toBytes_le h⟩
  · have := parse_toBytes_append h [] (by simp)
    rwa [List.append_nil] at this
  · have := parseType_toBytes_append w []
    rwa [List.append_nil] at this

/-- A Rollback record with an overlapped rollback and every other field set. -/
theorem write_codec_allFields :
    let w : Write :=
      { writeType := .rollback, startTs := 2 ^ 63, shortValue := some [82, 70]
        hasOverlappedRollback := true, gcFence := some 0, lastChange := .notExist
        txnSource := 300 }
    parse w.toBytes = .ok w ∧ parseType w.toBytes = .ok w.writeType := by
  have h := write_codec (w := { writeType := .rollback, startTs := 2 ^ 63
                                shortValue := some [82, 70], hasOverlappedRollback := true
                                gcFence := some 0, lastChange := .notExist, txnSource := 300 })
    { startTs := by norm_num
      shortValue := by intro v hv; cases hv; decide
      gcFence := by intro ts hts; cases hts; norm_num
      lastChange := trivial
      txnSource := by norm_num }
  exact ⟨h.1, h.2.1⟩

end Write

end Tikv
