import Tikv.Codec.Bytes

/-!
# Records with tagged fields

The values of the lock CF and of the write CF have one layout: a header, then optional fields
that each begin with a tag byte. A parser reads fields until the bytes end or it meets a tag it
does not know; a newer version can therefore append fields that an older one leaves alone.

`FieldParser.run` is that loop over an arbitrary set of tags. Its three lemmas say what it does
at the end, at a tag it does not know and at a field; the records instantiate it. The two
fields both records have, the short value and the last-change pointer, are here too.
-/

namespace Tikv

open Codec List

/-- Why a record is not parsed. -/
inductive RecordError
  | badFormatLock
  | badFormatWrite
  | codec (e : CodecError)
  /-- `content len [{}] shorter than short value len [{}]`, a panic. -/
  | shortValueLen (contentLen len : ℕ)
  /-- An assertion of the record's constructors. -/
  | panic (p : Panic)
  deriving DecidableEq

/-- A parser moves forward over the bytes of a record. -/
abbrev Parser (α : Type) := StateT Bytes (Except RecordError) α

namespace Parser

variable {α β : Type}

theorem run_bind_of_ok {x : Parser α} {f : α → Parser β} {data rest : Bytes} {a : α}
    (h : x.run data = .ok (a, rest)) : (x >>= f).run data = (f a).run rest := by
  rw [StateT.run_bind, h]
  rfl

theorem run_map_of_ok {x : Parser α} {data rest : Bytes} {a : α}
    (h : x.run data = .ok (a, rest)) (g : α → β) :
    (x >>= fun a => pure (g a)).run data = .ok (g a, rest) := by
  rw [run_bind_of_ok h]
  rfl

/-- A parser leaves at most as many bytes as it was given. -/
def Shrinks (p : Parser α) : Prop :=
  ∀ data a rest, p.run data = .ok (a, rest) → rest.length ≤ data.length

theorem Shrinks.pure (a : α) : Shrinks (Pure.pure a) := by
  intro data b rest h
  cases h
  exact Nat.le_refl _

theorem Shrinks.bind {x : Parser α} {f : α → Parser β} (hx : Shrinks x)
    (hf : ∀ a, Shrinks (f a)) : Shrinks (x >>= f) := by
  intro data b rest h
  obtain ⟨⟨a, mid⟩, hmid, h⟩ := bind_eq_ok.mp h
  exact (hf a mid b rest h).trans (hx data a mid hmid)

end Parser

/-! ### Decoders as parsers -/

namespace Decoder

variable {α β : Type}

/-- A decoder leaves at most as many bytes as it was given. -/
def Shrinks (d : Decoder α) : Prop :=
  ∀ data a rest, d.run data = .ok (a, rest) → rest.length ≤ data.length

theorem Shrinks.bind {x : Decoder α} {f : α → Decoder β} (hx : Shrinks x)
    (hf : ∀ a, Shrinks (f a)) : Shrinks (x >>= f) := by
  intro data b rest h
  obtain ⟨⟨a, mid⟩, hmid, h⟩ := bind_eq_ok.mp h
  exact (hf a mid b rest h).trans (hx data a mid hmid)

theorem Shrinks.pure (a : α) : Shrinks (Pure.pure a : Decoder α) := by
  intro data b rest h
  cases h
  exact Nat.le_refl _

/-- The decoder inside a parser, with its error turned into one of the record. -/
def orElse (d : Decoder α) (mapErr : CodecError → RecordError) : Parser α := fun data =>
  match d.run data with
  | .ok r => .ok r
  | .error e => .error (mapErr e)

variable {d : Decoder α}

/-- Only the errors change: the parser returns what the decoder returns. -/
theorem run_orElse_eq_ok {mapErr : CodecError → RecordError} {data : Bytes} {r : α × Bytes} :
    (d.orElse mapErr).run data = .ok r ↔ d.run data = .ok r := by
  change (match d.run data with | .ok r => _ | .error e => _) = _ ↔ _
  cases d.run data <;> simp

theorem run_orElse_of_ok {mapErr : CodecError → RecordError} {data rest : Bytes} {a : α}
    (h : d.run data = .ok (a, rest)) : (d.orElse mapErr).run data = .ok (a, rest) :=
  run_orElse_eq_ok.mpr h

theorem Shrinks.orElse (hd : Shrinks d) (mapErr : CodecError → RecordError) :
    (d.orElse mapErr).Shrinks :=
  fun data a rest h => hd data a rest (run_orElse_eq_ok.mp h)

/-- The decoder applied a number of times. -/
def replicate (d : Decoder α) : ℕ → Decoder (List α)
  | 0 => return []
  | n + 1 => do
    let a ← d
    let l ← replicate d n
    return a :: l

theorem replicate_run {enc : α → Bytes} {l : List α}
    (h : ∀ a ∈ l, ∀ rest, d.run (enc a ++ rest) = .ok (a, rest)) (rest : Bytes) :
    (d.replicate l.length).run (l.flatMap enc ++ rest) = .ok (l, rest) := by
  induction l with
  | nil => rfl
  | cons a l ih =>
    have ha := h a mem_cons_self (l.flatMap enc ++ rest)
    have hl := ih fun b hb => h b (mem_cons_of_mem _ hb)
    rw [flatMap_cons, append_assoc, length_cons, replicate, run_bind_of_ok ha,
      run_bind_of_ok hl]
    rfl

/-- A repeated decoder returns as many values as it was asked for. -/
theorem length_of_replicate_run {n : ℕ} {l : List α} {data rest : Bytes}
    (h : (d.replicate n).run data = .ok (l, rest)) : l.length = n := by
  induction n generalizing l data with
  | zero =>
    cases h
    rfl
  | succ n ih =>
    obtain ⟨⟨a, mid⟩, -, h⟩ := bind_eq_ok.mp h
    obtain ⟨⟨t, mid'⟩, ht, h⟩ := bind_eq_ok.mp h
    cases h
    rw [length_cons, ih ht]

theorem Shrinks.replicate (hd : Shrinks d) (n : ℕ) :
    (d.replicate n).Shrinks := by
  induction n with
  | zero => exact Shrinks.pure []
  | succ n ih => exact hd.bind fun a => ih.bind fun l => Shrinks.pure (a :: l)

end Decoder

namespace Codec

/-- `read_u8`. -/
def readU8 : Decoder UInt8
  | [] => .error .unexpectedEof
  | b :: data => .ok (b, data)

theorem readU8_shrinks : readU8.Shrinks := by
  rintro (_ | ⟨b, data⟩) a rest h
  · cases h
  · cases h
    exact Nat.le_succ _

theorem decodeU64_shrinks : decodeU64.Shrinks := by
  intro data a rest h
  change (if u64Size ≤ data.length then _ else _) = _ at h
  split at h
  · cases h
    rw [length_drop]
    exact Nat.sub_le _ _
  · cases h

/-- The bytes a pass leaves. -/
def VarStep.rest : VarStep → Bytes
  | .done _ rest | .more _ rest => rest

theorem length_rest_decodeVarLoop (n i res : ℕ) (data : Bytes) :
    (decodeVarLoop n i res data).rest.length ≤ data.length := by
  induction n generalizing i res data with
  | zero => exact Nat.le_refl _
  | succ n ih =>
    cases data with
    | nil => exact Nat.le_refl _
    | cons b data =>
      rw [decodeVarLoop]
      split
      · exact Nat.le_succ _
      · exact (ih _ _ data).trans (Nat.le_succ _)

/-- A number takes at least one byte. -/
theorem decodeVarU64_shrinks : decodeVarU64.Shrinks := by
  rintro (_ | ⟨b, tail⟩) a rest h
  · cases h
  have hnine := length_rest_decodeVarLoop 9 0 0 (b :: tail)
  have hall := length_rest_decodeVarLoop (b :: tail).length 0 0 (b :: tail)
  change (if _ then _ else if _ then _ else _) = _ at h
  split at h
  · cases h
    exact Nat.le_succ _
  split at h
  · split at h
    case h_1 v r hr =>
      cases h
      rw [hr] at hnine
      exact hnine
    case h_2 v c r hr =>
      split at h
      · cases h
        rw [hr] at hnine
        exact (Nat.le_succ _).trans hnine
      · cases h
    case h_3 => cases h
  · split at h
    case h_1 v r hr =>
      cases h
      rw [hr] at hall
      exact hall
    case h_2 => cases h

theorem decodeCompactBytes_shrinks : decodeCompactBytes.Shrinks := by
  have hlen : decodeVarI64.Shrinks := decodeVarU64_shrinks.bind fun v => Decoder.Shrinks.pure _
  refine hlen.bind fun vn => ?_
  intro data a rest h
  change (if asU64 vn ≤ data.length then _ else _) = _ at h
  split at h
  · cases h
    rw [length_drop]
    exact Nat.sub_le _ _
  · cases h

end Codec

/-! ### The loop over the fields -/

/-- The fields of a record: which tag stands for which field, and how a field changes what has
been read so far. -/
structure FieldParser (T F : Type) where
  tagOf : UInt8 → Option T
  field : T → F → Parser F
  shrinks : ∀ t f, (field t f).Shrinks

namespace FieldParser

variable {T F : Type} (p : FieldParser T F)

/-- Read fields until the bytes end or a tag is not known. -/
def run (f : F) (b : Bytes) : Except RecordError F :=
  match b with
  | [] => .ok f
  | tag :: rest =>
    match p.tagOf tag with
    | none => .ok f
    | some t =>
      match _h : (p.field t f).run rest with
      | .error e => .error e
      | .ok (f', rest') => run f' rest'
termination_by b.length
decreasing_by
  have := p.shrinks t f rest f' rest' _h
  rw [List.length_cons]
  omega

theorem run_of_unknown (f : F) {b : Bytes} (h : ∀ tag ∈ b.head?, p.tagOf tag = none) :
    p.run f b = .ok f := by
  cases b with
  | nil => rw [run]
  | cons tag rest => rw [run, h tag rfl]

theorem run_field {f f' : F} {tag : UInt8} {t : T} {b rest : Bytes} (ht : p.tagOf tag = some t)
    (h : (p.field t f).run b = .ok (f', rest)) : p.run f (tag :: b) = p.run f' rest := by
  rw [run, ht]
  dsimp only
  split
  case h_1 e he =>
    rw [h] at he
    cases he
  case h_2 g r hr =>
    rw [h] at hr
    cases hr
    rfl

/-- What every field keeps, the loop keeps. -/
theorem run_invariant {P : F → Prop}
    (hfield : ∀ t f data f' rest, P f → (p.field t f).run data = .ok (f', rest) → P f')
    {f g : F} {b : Bytes} (hf : P f) (h : p.run f b = .ok g) : P g := by
  fun_induction FieldParser.run p f b with
  | case1 f =>
    cases h
    exact hf
  | case2 f tag rest ht =>
    cases h
    exact hf
  | case3 => cases h
  | case4 f tag rest t ht f' rest' hrun ih => exact ih (hfield t f rest f' rest' hf hrun) h

/-- A field that may be left out: the record is the same whether it reads the bytes of the
field or finds it left out and keeps what it has. -/
theorem run_optional {f f' : F} {c : Prop} [Decidable c] {tag : UInt8} {t : T}
    {b rest : Bytes} (ht : p.tagOf tag = some t) (habsent : ¬ c → f' = f)
    (h : c → (p.field t f).run (b ++ rest) = .ok (f', rest)) :
    p.run f ((if c then tag :: b else []) ++ rest) = p.run f' rest := by
  by_cases hc : c
  · rw [if_pos hc, cons_append, p.run_field ht (h hc)]
  · rw [if_neg hc, nil_append, habsent hc]

/-- A field with one value, which may be left out. -/
theorem run_value {α : Type} {f : F} {c : Prop} [Decidable c] {tag : UInt8} {t : T} {d : Parser α}
    {g : F → α → F} {a : α} {b rest : Bytes} (ht : p.tagOf tag = some t)
    (hread : ∀ f, p.field t f = d >>= fun a => pure (g f a)) (habsent : ¬ c → g f a = f)
    (h : d.run (b ++ rest) = .ok (a, rest)) :
    p.run f ((if c then tag :: b else []) ++ rest) = p.run (g f a) rest := by
  refine p.run_optional ht habsent fun _ => ?_
  rw [hread]
  exact Parser.run_map_of_ok h _

end FieldParser

theorem length_optional_le {c : Prop} [Decidable c] {tag : UInt8} {b : Bytes} {n : ℕ}
    (h : c → b.length ≤ n) :
    (if c then tag :: b else []).length ≤ if c then 1 + n else 0 := by
  by_cases hc : c
  · rw [if_pos hc, if_pos hc, length_cons, Nat.add_comm]
    exact Nat.add_le_add_left (h hc) 1
  · rw [if_neg hc, if_neg hc]
    exact Nat.le_refl 0

/-! ### The short value -/

/-- `SHORT_VALUE_PREFIX`, the byte `v`. -/
def shortValuePrefix : UInt8 := 118

/-- The bytes of a short value behind its tag. -/
def encodeShortValue (v : Value) : Bytes := UInt8.ofNat v.length :: v

/-- Read a short value; a value that is cut off is a panic of the source. -/
def readShortValue (mapErr : CodecError → RecordError) : Parser Value := do
  let len ← readU8.orElse mapErr
  fun b =>
    if b.length < len.toNat then .error (.shortValueLen b.length len.toNat)
    else .ok (b.take len.toNat, b.drop len.toNat)

theorem readShortValue_run {v : Value} (h : v.length ≤ shortValueMaxLen)
    (mapErr : CodecError → RecordError) (rest : Bytes) :
    (readShortValue mapErr).run (encodeShortValue v ++ rest) = .ok (v, rest) := by
  have hlen : (UInt8.ofNat v.length).toNat = v.length := by
    have hmax : shortValueMaxLen = 255 := rfl
    rw [UInt8.toNat_ofNat']
    omega
  have hread : (readU8.orElse mapErr).run (encodeShortValue v ++ rest) =
      .ok (UInt8.ofNat v.length, v ++ rest) := rfl
  rw [readShortValue, Parser.run_bind_of_ok hread, hlen]
  change (if (v ++ rest).length < v.length then _ else _) = _
  rw [if_neg (by simp), take_left, drop_left]

theorem readShortValue_shrinks (mapErr : CodecError → RecordError) :
    (readShortValue mapErr).Shrinks := by
  refine (readU8_shrinks.orElse mapErr).bind fun len => ?_
  intro data a rest h
  change (if data.length < len.toNat then _ else _) = _ at h
  split_ifs at h
  cases h
  rw [length_drop]
  exact Nat.sub_le _ _

/-! ### The last-change pointer -/

/-- `LAST_CHANGE_PREFIX`, the byte `l`. -/
def lastChangePrefix : UInt8 := 108

namespace LastChange

/-- `LastChange::to_parts`. -/
def toParts : LastChange → ℕ × ℕ
  | .unknown => (0, 0)
  | .exist lastChangeTs estimated => (lastChangeTs, estimated)
  | .notExist => (0, 1)

/-- `LastChange::from_parts`. -/
def fromParts (lastChangeTs estimated : ℕ) : Except Panic LastChange :=
  if lastChangeTs = 0 then
    if estimated > 0 then .ok .notExist else .ok .unknown
  else makeExist lastChangeTs estimated

/-- The pointers that the two parts can stand for. -/
def Storable : LastChange → Prop
  | .unknown | .notExist => True
  | .exist lastChangeTs estimated =>
    (0 < lastChangeTs ∧ lastChangeTs < 2 ^ 64) ∧ 0 < estimated ∧ estimated < 2 ^ 64

variable {c : LastChange}

theorem fromParts_toParts (h : c.Storable) : fromParts c.toParts.1 c.toParts.2 = .ok c := by
  cases c with
  | unknown | notExist => rfl
  | exist ts n =>
    obtain ⟨⟨hts, -⟩, hn, -⟩ := h
    change fromParts ts n = _
    rw [fromParts, if_neg hts.ne', makeExist, if_neg (by omega)]

theorem Storable.toParts_lt (h : c.Storable) : c.toParts.1 < 2 ^ 64 ∧ c.toParts.2 < 2 ^ 64 := by
  cases c with
  | unknown | notExist => decide
  | exist ts n => exact ⟨h.1.2, h.2.2⟩

/-- The bytes of a pointer behind its tag. -/
def encode (c : LastChange) : Bytes := encodeU64 c.toParts.1 ++ encodeVarU64 c.toParts.2

/-- Read the two parts of a pointer. -/
def readParts : Parser (ℕ × ℕ) := do
  let lastChangeTs ← decodeU64.orElse .codec
  let estimated ← decodeVarU64.orElse .codec
  return (lastChangeTs, estimated)

theorem readParts_run (h : c.Storable) (rest : Bytes) :
    readParts.run (c.encode ++ rest) = .ok (c.toParts, rest) := by
  obtain ⟨hts, hn⟩ := h.toParts_lt
  have hfirst := decodeU64_encodeU64 hts (encodeVarU64 c.toParts.2 ++ rest)
  have hsecond := decodeVarU64_encodeVarU64 hn rest
  rw [encode, append_assoc, readParts,
    Parser.run_bind_of_ok (Decoder.run_orElse_of_ok hfirst),
    Parser.run_bind_of_ok (Decoder.run_orElse_of_ok hsecond)]
  rfl

theorem readParts_shrinks : readParts.Shrinks :=
  (decodeU64_shrinks.orElse _).bind fun _ =>
    (decodeVarU64_shrinks.orElse _).bind fun _ => Parser.Shrinks.pure _

theorem length_encode (h : c.Storable) : c.encode.length ≤ 8 + maxVarU64Len := by
  rw [encode, length_append]
  exact Nat.add_le_add_left (length_encodeVarU64 h.toParts_lt.2) 8

end LastChange

end Tikv
