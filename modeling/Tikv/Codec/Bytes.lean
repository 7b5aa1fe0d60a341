import Mathlib.Data.FinEnum
import Tikv.Codec.Number
import Tikv.Foundation.Chunks

/-!
# Memcomparable byte strings

`encode_bytes` cuts a byte string into groups of eight bytes, pads the last one and puts a marker
after each group that tells how many bytes of it are padding. A string whose length is a
multiple of eight gets one more group that is all padding, so that every code word ends with a
padded group. In descending order every byte is complemented.

Four functions read the format, each with a loop of its own: `decode_bytes` copies,
`decode_bytes_in_place` moves the groups together inside the buffer, `encoded_bytes_len` looks at
the markers only, and `is_encoded_from` compares with a given string from the back. A lemma for each
loop and each thing that can stand at the front says what the loop does.

The order and uniqueness laws of the encoder are those of the block code `groupCode`.
-/

namespace Tikv.Codec

open List

/-! ### The encoder -/

/-- `ENC_GROUP_SIZE`. -/
def encGroupSize : ℕ := 8

/-- `ENC_MARKER`. -/
def encMarker : UInt8 := 0xff

/-- The byte of `ENC_ASC_PADDING` and of `ENC_DESC_PADDING`. -/
def padByte (desc : Bool) : UInt8 := if desc then 0xff else 0

/-- `adjust_bytes_order`. -/
def adjustBytesOrder (bs : Bytes) (desc : Bool) : Bytes :=
  if desc then bs.map (~~~ ·) else bs

/-- The loop of `encode_bytes`, from the group that begins at `index`. -/
def encodeBytesLoop (key : Bytes) (desc : Bool) (index : ℕ) : Bytes :=
  if index ≤ key.length then
    let remain := key.length - index
    (if remain > encGroupSize then
      adjustBytesOrder ((key.drop index).take encGroupSize) desc ++
        adjustBytesOrder [encMarker - 0] desc
    else
      let pad := encGroupSize - remain
      adjustBytesOrder (key.drop index) desc ++ List.replicate pad (padByte desc) ++
        adjustBytesOrder [encMarker - UInt8.ofNat pad] desc) ++
    encodeBytesLoop key desc (index + encGroupSize)
  else []
termination_by key.length + 1 - index
decreasing_by
  simp only [encGroupSize]
  omega

/-- `encode_bytes`. -/
def encodeBytes (key : Bytes) (desc : Bool) : Bytes := encodeBytesLoop key desc 0

/-! ### The decoders -/

/-- How many bytes of a group are padding, according to its marker. -/
def padSize (desc : Bool) (marker : UInt8) : ℕ :=
  if desc then marker.toNat else (encMarker - marker).toNat

/-- The loop of `decode_bytes`, with the key collected so far. -/
def decodeBytesLoop (data : Bytes) (desc : Bool) (offset : ℕ) (key : Bytes) :
    Except CodecError (Bytes × Bytes) :=
  let nextOffset := offset + (encGroupSize + 1)
  if nextOffset ≤ data.length then
    let chunk := (data.drop offset).take (encGroupSize + 1)
    let marker := chunk.getLastD 0
    let bytes := chunk.dropLast
    let pad := padSize desc marker
    if pad = 0 then decodeBytesLoop data desc nextOffset (key ++ bytes)
    else if pad > encGroupSize then .error .keyPadding
    else
      let padding := bytes.drop (encGroupSize - pad)
      let key := key ++ bytes.take (encGroupSize - pad)
      if padding.any (· != padByte desc) then .error .keyPadding
      else .ok (adjustBytesOrder key desc, data.drop nextOffset)
  else .error .unexpectedEof
termination_by data.length - offset
decreasing_by omega

/-- `decode_bytes`. -/
def decodeBytes (desc : Bool) : Decoder Bytes := fun data => decodeBytesLoop data desc 0 []

/-- `ptr::copy` inside a buffer; the two ranges may overlap. -/
def copyWithin (data : Bytes) (src dst n : ℕ) : Bytes :=
  data.mapIdx fun i b => if dst ≤ i ∧ i < dst + n then data.getD (src + (i - dst)) 0 else b

@[simp] theorem length_copyWithin (data : Bytes) (src dst n : ℕ) :
    (copyWithin data src dst n).length = data.length := by
  simp [copyWithin]

/-- The loop of `decode_bytes_in_place`. -/
def decodeBytesInPlaceLoop (data : Bytes) (desc : Bool) (readOffset writeOffset : ℕ) :
    Except CodecError Bytes :=
  let markerOffset := readOffset + encGroupSize
  if markerOffset ≥ data.length then .error .unexpectedEof
  else
    let data' := copyWithin data readOffset writeOffset encGroupSize
    let writeOffset := writeOffset + encGroupSize
    let pad := padSize desc (data'.getD markerOffset 0)
    if pad > 0 then
      if pad > encGroupSize then .error .keyPadding
      else if (data'.drop (writeOffset - pad)).take pad != List.replicate pad (padByte desc) then
        .error .keyPadding
      else .ok (adjustBytesOrder (data'.take (writeOffset - pad)) desc)
    else decodeBytesInPlaceLoop data' desc (readOffset + (encGroupSize + 1)) writeOffset
termination_by data.length - readOffset
decreasing_by
  simp only [length_copyWithin]
  omega

/-- `decode_bytes_in_place`. -/
def decodeBytesInPlace (data : Bytes) (desc : Bool) : Except CodecError Bytes :=
  decodeBytesInPlaceLoop data desc 0 0

/-- The loop of `encoded_bytes_len`, at the marker `idx`. -/
def encodedBytesLenLoop (encoded : Bytes) (desc : Bool) (idx : ℕ) : ℕ :=
  if encoded.length < idx + 1 then encoded.length
  else
    let marker := encoded.getD idx 0
    if desc && marker != 0 || !desc && marker != encMarker then idx + 1
    else encodedBytesLenLoop encoded desc (idx + (encGroupSize + 1))
termination_by encoded.length - idx
decreasing_by omega

/-- `encoded_bytes_len`. -/
def encodedBytesLen (encoded : Bytes) (desc : Bool) : ℕ :=
  encodedBytesLenLoop encoded desc encGroupSize

/-- The closure `check_single_chunk` of `is_encoded_from`. -/
def checkSingleChunk (desc : Bool) (encoded raw : Bytes) : Bool :=
  let len := raw.length
  let pad := UInt8.ofNat (encGroupSize - len)
  if desc then
    encoded.getD encGroupSize 0 == ~~~(encMarker - pad) &&
      ((encoded.take len).zip raw).all (fun (enc, raw) => enc == ~~~raw) &&
      ((encoded.take (encoded.length - 1)).drop len).all (· == encMarker)
  else
    encoded.getD encGroupSize 0 == encMarker - pad &&
      encoded.take len == raw &&
      ((encoded.take (encoded.length - 1)).drop len).all (· == ~~~encMarker)

/-- `is_encoded_from`. -/
def isEncodedFrom (encoded raw : Bytes) (desc : Bool) : Bool :=
  -- Valid encoded bytes have complete chunks only.
  if (rchunksExactRemainder (encGroupSize + 1) encoded).length ≠ 0 then false
  else
    match rchunksExact (encGroupSize + 1) encoded with
    | [] => false
    | encodedChunk :: revEncodedChunks =>
      let rawChunks := chunksExact encGroupSize raw
      if !checkSingleChunk desc encodedChunk (chunksExactRemainder encGroupSize raw) then false
      else if revEncodedChunks.length ≠ rawChunks.length then false
      else
        (revEncodedChunks.zip rawChunks.reverse).all fun (encodedChunk, rawChunk) =>
          checkSingleChunk desc encodedChunk rawChunk

/-! ### One group -/

variable {desc : Bool}

/-- The marker of a group that holds `n` bytes. -/
def groupMarker (desc : Bool) (n : ℕ) : UInt8 :=
  if desc then ~~~(encMarker - UInt8.ofNat (encGroupSize - n))
  else encMarker - UInt8.ofNat (encGroupSize - n)

/-- A group: at most eight bytes, the padding and the marker. -/
def group (desc : Bool) (u : Bytes) : Bytes :=
  adjustBytesOrder u desc ++ List.replicate (encGroupSize - u.length) (padByte desc) ++
    [groupMarker desc u.length]

@[simp] theorem length_adjustBytesOrder (u : Bytes) :
    (adjustBytesOrder u desc).length = u.length := by
  cases desc <;> simp [adjustBytesOrder]

@[simp] theorem adjustBytesOrder_adjustBytesOrder (u : Bytes) :
    adjustBytesOrder (adjustBytesOrder u desc) desc = u := by
  cases desc
  · rfl
  · simp [adjustBytesOrder, Function.comp_def]

@[simp] theorem adjustBytesOrder_append (u v : Bytes) :
    adjustBytesOrder (u ++ v) desc = adjustBytesOrder u desc ++ adjustBytesOrder v desc := by
  cases desc <;> simp [adjustBytesOrder]

theorem adjustBytesOrder_marker (n : ℕ) :
    adjustBytesOrder [encMarker - UInt8.ofNat (encGroupSize - n)] desc =
      [groupMarker desc n] := by
  cases desc <;> rfl

theorem length_group {u : Bytes} (hu : u.length ≤ encGroupSize) :
    (group desc u).length = encGroupSize + 1 := by
  simp only [group, length_append, length_adjustBytesOrder, length_replicate,
    length_singleton]
  omega

/-- The memcomparable code, as a block code. -/
def groupCode (desc : Bool) : BlockCode UInt8 UInt8 where
  size := encGroupSize
  width := encGroupSize + 1
  block := group desc
  size_pos := by decide
  length_block := fun _ hu => length_group hu

theorem groupCode_block (u : Bytes) : (groupCode desc).block u = group desc u := rfl

/-- The loop of `encode_bytes` writes the groups of what is left of the key. -/
theorem encodeBytesLoop_eq {key : Bytes} {index : ℕ} (h : index ≤ key.length) :
    encodeBytesLoop key desc index = (groupCode desc).encode (key.drop index) := by
  fun_induction encodeBytesLoop key desc index with
  | case1 index hle remain ih =>
    have hlen : (key.drop index).length = remain := length_drop
    by_cases hfull : encGroupSize ≤ remain
    · -- A full group, written in either branch of the source; another one follows.
      have htake : ((key.drop index).take encGroupSize).length = encGroupSize :=
        length_take_of_le (by omega)
      have hgroup : (if remain > encGroupSize then
            adjustBytesOrder ((key.drop index).take encGroupSize) desc ++
              adjustBytesOrder [encMarker - 0] desc
          else
            adjustBytesOrder (key.drop index) desc ++
              List.replicate (encGroupSize - remain) (padByte desc) ++
              adjustBytesOrder [encMarker - UInt8.ofNat (encGroupSize - remain)] desc) =
          group desc ((key.drop index).take encGroupSize) := by
        rw [group, htake, Nat.sub_self, replicate_zero, append_nil,
          ← adjustBytesOrder_marker, Nat.sub_self]
        split
        · rfl
        · rw [take_of_length_le (by omega), show remain = encGroupSize by omega,
            Nat.sub_self, replicate_zero, append_nil]
      have hrest : key.drop (index + encGroupSize) = (key.drop index).drop encGroupSize := by
        rw [drop_drop]
      rw [hgroup, ih (by omega), hrest]
      exact ((groupCode desc).encode_append htake _).symm.trans
        (congrArg _ (take_append_drop _ _))
    · have hend : encodeBytesLoop key desc (index + encGroupSize) = [] := by
        rw [encodeBytesLoop, if_neg (by omega)]
      have hshort : (key.drop index).length < (groupCode desc).size := by
        rw [hlen]
        exact not_le.mp hfull
      rw [if_neg (by omega), hend, append_nil, (groupCode desc).encode_of_lt hshort]
      change _ = group desc (key.drop index)
      rw [group, hlen, ← adjustBytesOrder_marker]
  | case2 index hlt => exact absurd h hlt

theorem encodeBytes_eq (key : Bytes) (desc : Bool) :
    encodeBytes key desc = (groupCode desc).encode key := by
  rw [encodeBytes, encodeBytesLoop_eq (Nat.zero_le _), drop_zero]

/-! ### The order of groups -/

theorem compare_groupMarker {n m : ℕ} (hn : n ≤ encGroupSize) (hm : m ≤ encGroupSize) :
    compare (groupMarker false n) (groupMarker false m) = compare n m := by
  have h : ∀ n m : Fin 9, compare (groupMarker false n) (groupMarker false m) =
      compare n.val m.val := by decide
  exact h ⟨n, Nat.lt_succ_of_le hn⟩ ⟨m, Nat.lt_succ_of_le hm⟩

theorem compare_complement (a b : UInt8) : compare (~~~a) (~~~b) = compare b a := by
  have ha := a.toNat_lt
  have hb := b.toNat_lt
  have hsize : UInt8.size = 256 := rfl
  rw [UInt8.compare_eq_toNat_compare_toNat, UInt8.compare_eq_toNat_compare_toNat,
    UInt8.toNat_not, UInt8.toNat_not]
  simp only [Nat.compare_eq_ite_lt]
  split_ifs <;> first | rfl | omega

theorem group_true (u : Bytes) : group true u = (group false u).map (~~~ ·) := by
  simp only [group, adjustBytesOrder, padByte, groupMarker, map_append,
    map_replicate, map_singleton]
  rfl

/-- Groups compare like what they encode. -/
theorem compare_group {u v : Bytes} (hu : u.length ≤ encGroupSize)
    (hv : v.length ≤ encGroupSize) :
    compare (group desc u) (group desc v) = compareDir desc u v := by
  have hasc : ∀ {u v : Bytes}, u.length ≤ encGroupSize → v.length ≤ encGroupSize →
      compare (group false u) (group false v) = compare u v := by
    intro u v hu hv
    have hbot : ∀ a : UInt8, compare (padByte false) a ≠ .gt := by
      intro a h
      rw [UInt8.compare_eq_toNat_compare_toNat, Nat.compare_eq_gt] at h
      exact absurd h (Nat.not_lt_zero _)
    rw [group, group, compare_append (by simp; omega), List.compare_cons_cons,
      List.compare_nil_nil, Ordering.then_eq, compare_groupMarker hu hv]
    exact compare_pad hbot hu hv
  cases desc
  · exact hasc hu hv
  · rw [group_true, group_true, compare_map_of_reversing compare_complement
      (by rw [length_group hu, length_group hv])]
    exact hasc hv hu

/-- Encoded strings compare like the strings, in the chosen direction; what follows them
decides only between equal ones. -/
theorem compare_encodeBytes_append (k l x y : Bytes) :
    compare (encodeBytes k desc ++ x) (encodeBytes l desc ++ y) =
      (compareDir desc k l).then (compare x y) := by
  rw [encodeBytes_eq, encodeBytes_eq]
  exact (groupCode desc).compare_encode_append (fun _ _ hu hv => compare_group hu hv) k l x y

/-! ### Reading one group back -/

/-- What the decoders find in a chunk of nine bytes: the bytes of the group, if the marker and
the padding are right. -/
def parseGroup (desc : Bool) (chunk : Bytes) : Option Bytes :=
  let bytes := chunk.dropLast
  let pad := padSize desc (chunk.getLastD 0)
  if pad ≤ encGroupSize ∧ ∀ x ∈ bytes.drop (encGroupSize - pad), x = padByte desc then
    some (adjustBytesOrder (bytes.take (encGroupSize - pad)) desc)
  else none

theorem padSize_groupMarker {n : ℕ} (hn : n ≤ encGroupSize) :
    padSize desc (groupMarker desc n) = encGroupSize - n := by
  have h : ∀ (desc : Bool) (n : Fin 9),
      padSize desc (groupMarker desc n) = encGroupSize - n.val := by decide
  exact h desc ⟨n, Nat.lt_succ_of_le hn⟩

theorem groupMarker_padSize {m : UInt8} (hm : padSize desc m ≤ encGroupSize) :
    groupMarker desc (encGroupSize - padSize desc m) = m := by
  have h : ∀ (desc : Bool) (n : Fin 256), padSize desc (UInt8.ofNat n) ≤ encGroupSize →
      groupMarker desc (encGroupSize - padSize desc (UInt8.ofNat n)) = UInt8.ofNat n := by
    decide +kernel
  have := h desc ⟨m.toNat, m.toNat_lt⟩
  rw [UInt8.ofNat_toNat] at this
  exact this hm

theorem parseGroup_append {bytes : Bytes} {m : UInt8} :
    parseGroup desc (bytes ++ [m]) =
      if padSize desc m ≤ encGroupSize ∧
          ∀ x ∈ bytes.drop (encGroupSize - padSize desc m), x = padByte desc then
        some (adjustBytesOrder (bytes.take (encGroupSize - padSize desc m)) desc)
      else none := by
  simp only [parseGroup, dropLast_concat, getLastD_concat]

theorem parseGroup_group {u : Bytes} (hu : u.length ≤ encGroupSize) :
    parseGroup desc (group desc u) = some u := by
  have hpad : padSize desc (groupMarker desc u.length) = encGroupSize - u.length :=
    padSize_groupMarker hu
  have hsub : encGroupSize - (encGroupSize - u.length) = (adjustBytesOrder u desc).length := by
    rw [length_adjustBytesOrder]
    omega
  rw [group, parseGroup_append, hpad, hsub, take_left, drop_left, if_pos,
    adjustBytesOrder_adjustBytesOrder]
  refine ⟨Nat.sub_le _ _, ?_⟩
  intro x hx
  exact eq_of_mem_replicate hx

variable {c u : Bytes}

/-- A group that is accepted is the group of what is read from it. -/
theorem group_of_parseGroup (hc : c.length = encGroupSize + 1) (h : parseGroup desc c = some u) :
    u.length ≤ encGroupSize ∧ c = group desc u := by
  obtain ⟨bytes, m, rfl⟩ : ∃ bytes m, c = bytes ++ [m] :=
    ⟨_, _, (dropLast_append_getLast (ne_nil_of_length_eq_add_one hc)).symm⟩
  have hbytes : bytes.length = encGroupSize := by simpa using hc
  rw [parseGroup_append] at h
  split at h
  case isFalse => cases h
  case isTrue hcond =>
    obtain ⟨hpad, hpadding⟩ := hcond
    cases h
    have hlen : (bytes.take (encGroupSize - padSize desc m)).length =
        encGroupSize - padSize desc m :=
      length_take_of_le (by omega)
    have hdrop : bytes.drop (encGroupSize - padSize desc m) =
        List.replicate (padSize desc m) (padByte desc) := by
      rw [eq_replicate_iff]
      refine ⟨?_, hpadding⟩
      rw [length_drop]
      omega
    constructor
    · rw [length_adjustBytesOrder, hlen]
      exact Nat.sub_le _ _
    · rw [group, length_adjustBytesOrder, hlen, adjustBytesOrder_adjustBytesOrder,
        groupMarker_padSize hpad, Nat.sub_sub_self hpad, ← hdrop, take_append_drop]

/-! ### Reading a whole string -/

/-- The decoder as a function of the bytes that are left. -/
def decodeGroups (desc : Bool) (data : Bytes) : Except CodecError (Bytes × Bytes) :=
  if encGroupSize + 1 ≤ data.length then
    match parseGroup desc (data.take (encGroupSize + 1)) with
    | none => .error .keyPadding
    | some u =>
      if u.length = encGroupSize then
        (decodeGroups desc (data.drop (encGroupSize + 1))).map fun (k, r) => (u ++ k, r)
      else .ok (u, data.drop (encGroupSize + 1))
  else .error .unexpectedEof
termination_by data.length
decreasing_by
  rw [List.length_drop]
  omega

variable {data : Bytes}

theorem decodeGroups_of_lt (h : data.length < encGroupSize + 1) :
    decodeGroups desc data = .error .unexpectedEof := by
  rw [decodeGroups, if_neg (not_le.mpr h)]

theorem decodeGroups_group {u : Bytes} (hu : u.length ≤ encGroupSize) (rest : Bytes) :
    decodeGroups desc (group desc u ++ rest) =
      if u.length = encGroupSize then
        (decodeGroups desc rest).map fun (k, r) => (u ++ k, r)
      else .ok (u, rest) := by
  have hlen : (group desc u).length = encGroupSize + 1 := length_group hu
  rw [decodeGroups, if_pos (by rw [length_append]; omega), ← hlen, take_left,
    drop_left, parseGroup_group hu]

theorem decodeGroups_encode (k r : Bytes) :
    decodeGroups desc ((groupCode desc).encode k ++ r) = .ok (k, r) := by
  induction k using (groupCode desc).block_induction with
  | short k hk =>
    have hlt : k.length < encGroupSize := hk
    rw [(groupCode desc).encode_of_lt hk, groupCode_block, decodeGroups_group hlt.le,
      if_neg hlt.ne]
  | full p k hp ih =>
    have hp' : p.length = encGroupSize := hp
    rw [(groupCode desc).encode_append hp, groupCode_block, append_assoc,
      decodeGroups_group hp'.le, if_pos hp', ih]
    rfl

/-- What is decoded encodes to what was read. -/
theorem eq_encode_of_decodeGroups {data k r : Bytes} (h : decodeGroups desc data = .ok (k, r)) :
    data = (groupCode desc).encode k ++ r := by
  fun_induction decodeGroups desc data generalizing k with
  | case1 data hlen hparse => cases h
  | case2 data hlen u hparse hu ih =>
    obtain ⟨-, hgroup⟩ := group_of_parseGroup (length_take_of_le hlen) hparse
    obtain ⟨⟨k', r'⟩, hrest, hk⟩ := map_eq_ok.mp h
    cases hk
    rw [(groupCode desc).encode_append hu, groupCode_block, append_assoc, ← ih hrest,
      ← hgroup, take_append_drop]
  | case3 data hlen u hparse hu =>
    obtain ⟨hle, hgroup⟩ := group_of_parseGroup (length_take_of_le hlen) hparse
    cases h
    rw [(groupCode desc).encode_of_lt (lt_of_le_of_ne hle hu), groupCode_block, ← hgroup,
      take_append_drop]
  | case4 data hlen => cases h

/-! ### The loops of the decoders -/

variable {offset : ℕ}

theorem take_drop_eq_append_marker (h : offset + encGroupSize < data.length) :
    (data.drop offset).take (encGroupSize + 1) =
      (data.drop offset).take encGroupSize ++ [data.getD (offset + encGroupSize) 0] := by
  rw [take_add_one, getElem?_drop, getD_eq_getElem?_getD,
    getElem?_eq_getElem h]
  rfl

/-- How the decoder goes on after the chunk at an offset, by its marker. -/
theorem decodeGroups_drop {bytes : Bytes} {pad : ℕ} (h : offset + encGroupSize < data.length)
    (hbytes : (data.drop offset).take encGroupSize = bytes)
    (hpad : padSize desc (data.getD (offset + encGroupSize) 0) = pad) :
    decodeGroups desc (data.drop offset) =
      if pad = 0 then
        (decodeGroups desc (data.drop (offset + (encGroupSize + 1)))).map fun (k, r) =>
          (adjustBytesOrder bytes desc ++ k, r)
      else if pad > encGroupSize then .error .keyPadding
      else if bytes.drop (encGroupSize - pad) = List.replicate pad (padByte desc) then
        .ok (adjustBytesOrder (bytes.take (encGroupSize - pad)) desc,
          data.drop (offset + (encGroupSize + 1)))
      else .error .keyPadding := by
  have hlen : bytes.length = encGroupSize := by
    rw [← hbytes, length_take, length_drop]
    omega
  rw [decodeGroups, if_pos (by rw [length_drop]; omega), take_drop_eq_append_marker h, hbytes,
    parseGroup_append, hpad, drop_drop]
  rcases Nat.eq_zero_or_pos pad with rfl | hpos
  · rw [if_pos rfl, Nat.sub_zero, ← hlen, take_length, drop_length,
      if_pos ⟨Nat.zero_le _, by simp⟩]
    dsimp only
    rw [if_pos (by rw [length_adjustBytesOrder])]
  rw [if_neg hpos.ne']
  by_cases hgt : pad > encGroupSize
  · rw [if_pos hgt, if_neg fun h => absurd h.1 (not_le.mpr hgt)]
  have hle := not_lt.mp hgt
  have hdrop : (bytes.drop (encGroupSize - pad)).length = pad := by
    rw [length_drop]
    omega
  have hshort : (adjustBytesOrder (bytes.take (encGroupSize - pad)) desc).length ≠
      encGroupSize := by
    rw [length_adjustBytesOrder, length_take]
    omega
  rw [if_neg hgt]
  by_cases hall : bytes.drop (encGroupSize - pad) = List.replicate pad (padByte desc)
  · rw [if_pos hall, if_pos ⟨hle, (eq_replicate_iff.mp hall).2⟩]
    exact if_neg hshort
  · rw [if_neg hall, if_neg fun h => hall (eq_replicate_iff.mpr ⟨hdrop, h.2⟩)]

/-- `decode_bytes` from an offset reads the string that begins there. -/
theorem decodeBytesLoop_eq (data : Bytes) (offset : ℕ) (key : Bytes) :
    decodeBytesLoop data desc offset key =
      (decodeGroups desc (data.drop offset)).map fun (k, r) =>
        (adjustBytesOrder key desc ++ k, r) := by
  induction hn : data.length - offset using Nat.strongRecOn generalizing offset key with
  | ind n ih =>
    by_cases hlt : offset + (encGroupSize + 1) ≤ data.length
    · rw [decodeBytesLoop, if_pos hlt, take_drop_eq_append_marker hlt,
        decodeGroups_drop hlt rfl rfl]
      dsimp only
      rw [getLastD_concat, dropLast_concat]
      have hlen : ((data.drop offset).take encGroupSize).length = encGroupSize := by
        rw [length_take, length_drop]
        omega
      generalize padSize desc (data.getD (offset + encGroupSize) 0) = pad
      split_ifs with hfull hgt hany hall hall
      · rw [ih _ (by omega) _ _ rfl]
        cases decodeGroups desc (data.drop (offset + (encGroupSize + 1))) with
        | error e => rfl
        | ok kr => simp [Except.map]
      · rfl
      · simp [hall] at hany
      · rfl
      · rw [adjustBytesOrder_append]
        rfl
      · refine absurd (eq_replicate_iff.mpr ⟨by rw [length_drop]; omega, ?_⟩) hall
        simpa using hany
    · rw [decodeBytesLoop, if_neg hlt, decodeGroups_of_lt (by rw [length_drop]; omega)]
      rfl

theorem decodeBytes_eq (data : Bytes) : (decodeBytes desc).run data = decodeGroups desc data := by
  change decodeBytesLoop data desc 0 [] = _
  rw [decodeBytesLoop_eq, drop_zero]
  cases decodeGroups desc data <;> cases desc <;> rfl

/-! Moving a block towards the front of the buffer. -/

section CopyWithin

variable {data : Bytes} {src dst n : ℕ}

/-- Copying towards the front does not overwrite what is still to be copied. -/
theorem take_copyWithin (hdst : dst ≤ src) (hsrc : src + n ≤ data.length) :
    (copyWithin data src dst n).take (dst + n) = data.take dst ++ (data.drop src).take n := by
  apply ext_getElem?
  intro i
  by_cases hi : i < dst + n
  · rw [getElem?_take_of_lt hi, copyWithin, getElem?_mapIdx]
    by_cases hid : i < dst
    · rw [getElem?_append_left (by rw [length_take]; omega),
        getElem?_take_of_lt hid]
      simp [Nat.not_le.mpr hid]
    · have hlen : (data.take dst).length = dst := length_take_of_le (by omega)
      rw [getElem?_append_right (by rw [hlen]; omega), hlen,
        getElem?_take_of_lt (by omega), getElem?_drop,
        getElem?_eq_getElem (by omega : i < data.length)]
      have : src + (i - dst) < data.length := by omega
      simp [not_lt.mp hid, hi, this]
  · rw [getElem?_eq_none, getElem?_eq_none] <;>
      simp only [length_append, length_take] <;>
      omega

theorem drop_copyWithin {k : ℕ} (hk : dst + n ≤ k) :
    (copyWithin data src dst n).drop k = data.drop k := by
  apply ext_getElem?
  intro i
  rw [getElem?_drop, copyWithin]
  have : ¬ k + i < dst + n := by omega
  simp [this]

theorem getD_copyWithin {k : ℕ} (hk : dst + n ≤ k) :
    (copyWithin data src dst n).getD k 0 = data.getD k 0 := by
  rw [getD_eq_getElem?_getD, getD_eq_getElem?_getD, copyWithin,
    getElem?_mapIdx]
  have : ¬ k < dst + n := by omega
  simp [this]

theorem take_drop_copyWithin {p : ℕ} (hdst : dst ≤ src) (hsrc : src + n ≤ data.length)
    (hp : p ≤ n) :
    ((copyWithin data src dst n).drop (dst + n - p)).take p =
      ((data.drop src).take n).drop (n - p) := by
  have hlen : (data.take dst).length = dst := length_take_of_le (by omega)
  have h := congrArg (List.drop (dst + n - p)) (take_copyWithin hdst hsrc)
  rw [drop_take, Nat.sub_sub_self (by omega), drop_append,
    drop_of_length_le (l := data.take dst) (by omega), hlen, nil_append] at h
  rw [h]
  congr 1
  omega

theorem take_sub_copyWithin {p : ℕ} (hdst : dst ≤ src) (hsrc : src + n ≤ data.length)
    (hp : p ≤ n) :
    (copyWithin data src dst n).take (dst + n - p) =
      data.take dst ++ ((data.drop src).take n).take (n - p) := by
  have hlen : (data.take dst).length = dst := length_take_of_le (by omega)
  have h := congrArg (List.take (dst + n - p)) (take_copyWithin hdst hsrc)
  rw [take_take, Nat.min_eq_left (Nat.sub_le _ _), take_append,
    take_of_length_le (l := data.take dst) (by omega), hlen] at h
  rw [h]
  congr 2
  omega

end CopyWithin

variable {readOffset writeOffset : ℕ}

/-- `decode_bytes_in_place` collects at the front of the buffer what `decode_bytes` collects
apart. As long as the write offset is not ahead of the read offset, the memmove only overwrites
bytes that have been read. -/
theorem decodeBytesInPlaceLoop_eq (hle : writeOffset ≤ readOffset) :
    decodeBytesInPlaceLoop data desc readOffset writeOffset =
      (decodeGroups desc (data.drop readOffset)).map fun (k, _) =>
        adjustBytesOrder (data.take writeOffset) desc ++ k := by
  induction hn : data.length - readOffset using Nat.strongRecOn
    generalizing data readOffset writeOffset with
  | ind n ih =>
    by_cases heof : data.length ≤ readOffset + encGroupSize
    · rw [decodeBytesInPlaceLoop, if_pos heof, decodeGroups_of_lt (by rw [length_drop]; omega)]
      rfl
    have hlt : readOffset + encGroupSize < data.length := not_le.mp heof
    rw [decodeBytesInPlaceLoop, if_neg heof, decodeGroups_drop hlt rfl rfl]
    dsimp only
    rw [getD_copyWithin (by omega)]
    generalize padSize desc (data.getD (readOffset + encGroupSize) 0) = pad
    rcases Nat.eq_zero_or_pos pad with rfl | hpos
    · -- The full group has moved behind the key collected so far.
      rw [if_neg (lt_irrefl 0), if_pos rfl, ih _ (by rw [length_copyWithin]; omega) (by omega) rfl,
        take_copyWithin hle hlt.le, drop_copyWithin (by omega), adjustBytesOrder_append]
      cases decodeGroups desc (data.drop (readOffset + (encGroupSize + 1))) with
      | error e => rfl
      | ok kr => simp [Except.map]
    rw [if_pos hpos, if_neg hpos.ne']
    by_cases hgt : pad > encGroupSize
    · rw [if_pos hgt, if_pos hgt]
      rfl
    have hpad : pad ≤ encGroupSize := not_lt.mp hgt
    rw [if_neg hgt, if_neg hgt, take_drop_copyWithin hle hlt.le hpad,
      take_sub_copyWithin hle hlt.le hpad, adjustBytesOrder_append]
    simp only [bne_iff_ne, ite_not]
    split <;> rfl

theorem decodeBytesInPlace_eq (data : Bytes) :
    decodeBytesInPlace data desc = (decodeGroups desc data).map Prod.fst := by
  rw [decodeBytesInPlace, decodeBytesInPlaceLoop_eq (Nat.le_refl 0), drop_zero]
  cases decodeGroups desc data <;> cases desc <;> rfl

/-! ### The length of a code word -/

/-- Only the marker of a padded group differs from that of a full one. -/
theorem marker_ne_iff {n : ℕ} (hn : n ≤ encGroupSize) :
    (desc && groupMarker desc n != 0 || !desc && groupMarker desc n != encMarker) = true ↔
      n < encGroupSize := by
  have h : ∀ (desc : Bool) (n : Fin 9),
      (desc && groupMarker desc n != 0 || !desc && groupMarker desc n != encMarker) = true ↔
        n.val < encGroupSize := by decide
  exact h desc ⟨n, Nat.lt_succ_of_le hn⟩

/-- At the marker of a group the loop of `encoded_bytes_len` stops, or goes on if it is full. -/
theorem encodedBytesLenLoop_group {encoded u t : Bytes} (hu : u.length ≤ encGroupSize)
    (h : encoded.drop offset = group desc u ++ t) :
    encodedBytesLenLoop encoded desc (offset + encGroupSize) =
      if u.length < encGroupSize then offset + encGroupSize + 1
      else encodedBytesLenLoop encoded desc (offset + (encGroupSize + 1) + encGroupSize) := by
  have hlen : encoded.length - offset = encGroupSize + 1 + t.length := by
    rw [← length_drop, h, length_append, length_group hu]
  have hmarker : encoded.getD (offset + encGroupSize) 0 = groupMarker desc u.length := by
    have hpos : (adjustBytesOrder u desc ++
        List.replicate (encGroupSize - u.length) (padByte desc)).length = encGroupSize := by
      simp only [length_append, length_adjustBytesOrder, length_replicate]
      omega
    rw [getD_eq_getElem?_getD, ← getElem?_drop, h, group, append_assoc,
      getElem?_append_right (by rw [hpos]), hpos]
    simp
  rw [encodedBytesLenLoop, if_neg (by omega), hmarker]
  simp only [marker_ne_iff hu]
  congr 2

/-- The loop over the markers stops behind the last group. -/
theorem encodedBytesLenLoop_eq {encoded k r : Bytes}
    (h : encoded.drop offset = (groupCode desc).encode k ++ r) :
    encodedBytesLenLoop encoded desc (offset + encGroupSize) =
      offset + ((groupCode desc).encode k).length := by
  induction k using (groupCode desc).block_induction generalizing offset with
  | short k hk =>
    have hlt : k.length < encGroupSize := hk
    rw [(groupCode desc).encode_of_lt hk, groupCode_block] at h ⊢
    rw [encodedBytesLenLoop_group hlt.le h, if_pos hlt, length_group hlt.le, Nat.add_assoc]
  | full p k hp ih =>
    have hp' : p.length = encGroupSize := hp
    rw [(groupCode desc).encode_append hp, groupCode_block, append_assoc] at h
    have hrest : encoded.drop (offset + (encGroupSize + 1)) =
        (groupCode desc).encode k ++ r := by
      rw [← drop_drop, h, ← length_group hp'.le, drop_left]
    rw [encodedBytesLenLoop_group hp'.le h, if_neg hp'.not_lt, ih hrest,
      (groupCode desc).encode_append hp, groupCode_block, length_append,
      length_group hp'.le, Nat.add_assoc]

/-! ### Comparing with a given string -/

/-- The check of `is_encoded_from` accepts the group of the given bytes and nothing else. -/
theorem checkSingleChunk_iff (hc : c.length = encGroupSize + 1) (hu : u.length ≤ encGroupSize) :
    checkSingleChunk desc c u = true ↔ c = group desc u := by
  obtain ⟨bytes, m, rfl⟩ : ∃ bytes m, c = bytes ++ [m] :=
    ⟨_, _, (dropLast_append_getLast (ne_nil_of_length_eq_add_one hc)).symm⟩
  have hbytes : bytes.length = encGroupSize := by simpa using hc
  have hlast : (bytes ++ [m]).getD encGroupSize 0 = m := by
    rw [← hbytes]
    simp
  have hinit : (bytes ++ [m]).take ((bytes ++ [m]).length - 1) = bytes := by simp
  have htake : (bytes ++ [m]).take u.length = bytes.take u.length :=
    take_append_of_le_length (by omega)
  have hpadding : ∀ b : UInt8, (bytes.drop u.length).all (· == b) = true ↔
      bytes.drop u.length = List.replicate (encGroupSize - u.length) b := by
    intro b
    rw [eq_replicate_iff, length_drop, hbytes]
    simp
  have hgroup : bytes ++ [m] = group desc u ↔ m = groupMarker desc u.length ∧
      bytes.take u.length = adjustBytesOrder u desc ∧
      bytes.drop u.length = List.replicate (encGroupSize - u.length) (padByte desc) := by
    constructor
    · intro h
      obtain ⟨hb, hm⟩ := append_inj' h rfl
      refine ⟨singleton_inj.mp hm, ?_, ?_⟩
      · rw [hb, take_append_of_le_length (by simp), take_of_length_le (by simp)]
      · have hlen : u.length = (adjustBytesOrder u desc).length := by simp
        rw [hb, hlen, drop_left]
    · rintro ⟨hm, ht, hd⟩
      rw [group, ← hm, ← ht, ← hd, take_append_drop]
  rw [hgroup, checkSingleChunk, hlast, hinit, htake]
  cases desc
  · simp only [Bool.false_eq_true, if_false, Bool.and_eq_true, hpadding, beq_iff_eq,
      and_assoc]
    rfl
  · have hzip : ((bytes.take u.length).zip u).all (fun p => p.1 == ~~~p.2) = true ↔
        bytes.take u.length = u.map (~~~ ·) := by
      have hlen : (bytes.take u.length).length = u.length := length_take_of_le (by omega)
      rw [← forall_mem_zip_iff _ hlen, all_eq_true]
      simp only [beq_iff_eq]
    simp only [if_true, Bool.and_eq_true, hpadding, beq_iff_eq, and_assoc, hzip]
    rfl

theorem all_checkSingleChunk_iff {cs us : List Bytes} (hlen : cs.length = us.length)
    (hcs : ∀ c ∈ cs, c.length = encGroupSize + 1) (hus : ∀ u ∈ us, u.length ≤ encGroupSize) :
    ((cs.zip us).all fun (c, u) => checkSingleChunk desc c u) = true ↔
      cs = us.map (group desc) := by
  rw [← forall_mem_zip_iff _ hlen, all_eq_true]
  refine forall₂_congr fun p hp => ?_
  obtain ⟨hc, hu⟩ := of_mem_zip hp
  exact checkSingleChunk_iff (hcs _ hc) (hus _ hu)

/-- `is_encoded_from` compares with the encoding. -/
theorem isEncodedFrom_iff (encoded raw : Bytes) :
    isEncodedFrom encoded raw desc = true ↔ encoded = (groupCode desc).encode raw := by
  have hw : 0 < encGroupSize + 1 := Nat.succ_pos _
  have hrem : (rchunksExactRemainder (encGroupSize + 1) encoded).length =
      encoded.length % (encGroupSize + 1) := by
    rw [rchunksExactRemainder, length_take, Nat.min_eq_left (Nat.mod_le _ _)]
  rw [isEncodedFrom, hrem]
  by_cases hmod : encoded.length % (encGroupSize + 1) = 0
  · -- From here on both sides are about the chunks, the last one first.
    rw [if_neg (not_not.mpr hmod), rchunksExact_eq_reverse hw hmod,
      (groupCode desc).eq_encode_iff hw hmod, ← reverse_inj, reverse_append]
    change _ ↔ (chunksExact (encGroupSize + 1) encoded).reverse = group desc
      (chunksExactRemainder encGroupSize raw) ::
        ((chunksExact encGroupSize raw).map (group desc)).reverse
    have hcs : ∀ c ∈ (chunksExact (encGroupSize + 1) encoded).reverse,
        c.length = encGroupSize + 1 := fun c hc =>
      length_of_mem_chunksExact (mem_reverse.mp hc)
    have hus : ∀ u ∈ (chunksExact encGroupSize raw).reverse, u.length ≤ encGroupSize :=
      fun u hu => (length_of_mem_chunksExact (mem_reverse.mp hu)).le
    generalize (chunksExact (encGroupSize + 1) encoded).reverse = cs at hcs ⊢
    cases cs with
    | nil => simp
    | cons c cs =>
      obtain ⟨hc, hcs⟩ := forall_mem_cons.mp hcs
      have hlast : checkSingleChunk desc c (chunksExactRemainder encGroupSize raw) = true ↔
          c = group desc (chunksExactRemainder encGroupSize raw) :=
        checkSingleChunk_iff hc (length_chunksExactRemainder (by decide) raw).le
      dsimp only
      rw [List.cons.injEq, ← hlast, ← map_reverse]
      by_cases hcheck : checkSingleChunk desc c (chunksExactRemainder encGroupSize raw) = true
      · rw [if_neg (by simp [hcheck])]
        by_cases hlen : cs.length = (chunksExact encGroupSize raw).length
        · rw [if_neg (not_not.mpr hlen),
            all_checkSingleChunk_iff (by rw [hlen, length_reverse]) hcs hus,
            and_iff_right hcheck]
        · rw [if_pos hlen]
          refine ⟨nofun, ?_⟩
          rintro ⟨-, h⟩
          rw [h] at hlen
          simp at hlen
      · rw [if_pos (by simpa using hcheck)]
        exact ⟨nofun, fun h => absurd h.1 hcheck⟩
  · rw [if_pos hmod]
    refine ⟨nofun, fun h => ?_⟩
    rw [h] at hmod
    exact absurd ((groupCode desc).length_encode_mod raw) hmod

/-! ### The format -/

/-- The memcomparable strings are the code words of `encode_bytes`, each of one byte string. The
two decoders agree on every input, succeed exactly on what begins with a code word, and
`encoded_bytes_len` and `is_encoded_from` recognise the same code words. -/
theorem memcomparable_decoders_agree (desc : Bool) :
    (∀ k r, (decodeBytes desc).run (encodeBytes k desc ++ r) = .ok (k, r) ∧
      decodeBytesInPlace (encodeBytes k desc ++ r) desc = .ok k) ∧
    (∀ x, decodeBytesInPlace x desc = ((decodeBytes desc).run x).map Prod.fst) ∧
    (∀ x k r, (decodeBytes desc).run x = .ok (k, r) →
      x = encodeBytes k desc ++ r ∧ encodedBytesLen x desc = (encodeBytes k desc).length) ∧
    ∀ x k, isEncodedFrom x k desc = true ↔ x = encodeBytes k desc := by
  refine ⟨?_, ?_, ?_, ?_⟩
  · intro k r
    rw [encodeBytes_eq, decodeBytes_eq, decodeBytesInPlace_eq, decodeGroups_encode]
    exact ⟨rfl, rfl⟩
  · intro x
    rw [decodeBytesInPlace_eq, decodeBytes_eq]
  · intro x k r h
    rw [decodeBytes_eq] at h
    have hx := eq_encode_of_decodeGroups h
    have hlen : encodedBytesLenLoop x desc (0 + encGroupSize) = _ :=
      encodedBytesLenLoop_eq ((drop_zero).trans hx)
    rw [Nat.zero_add, Nat.zero_add] at hlen
    rw [encodeBytes_eq]
    exact ⟨hx, hlen⟩
  · intro x k
    rw [isEncodedFrom_iff, encodeBytes_eq]

/-! ### Compact byte strings

Where the order does not matter a string is written as it is, after its length. -/

/-- `encode_compact_bytes`. -/
def encodeCompactBytes (data : Bytes) : Bytes := encodeVarI64 (asI64 data.length) ++ data

/-- `decode_compact_bytes`. -/
def decodeCompactBytes : Decoder Bytes := do
  let vn ← decodeVarI64
  let vn := asU64 vn
  fun data =>
    if vn ≤ data.length then .ok (data.take vn, data.drop vn) else .error .unexpectedEof

theorem length_encodeCompactBytes (data : Bytes) :
    (encodeCompactBytes data).length ≤ maxVarI64Len + data.length := by
  rw [encodeCompactBytes, length_append]
  exact Nat.add_le_add_right (length_encodeVarI64 _) _

/-- Compact bytes are read back. -/
theorem decodeCompactBytes_encodeCompactBytes (h : data.length < 2 ^ 63) (rest : Bytes) :
    decodeCompactBytes.run (encodeCompactBytes data ++ rest) = .ok (data, rest) := by
  have hlen : decodeVarI64.run (encodeVarI64 (asI64 data.length) ++ (data ++ rest)) =
      .ok (data.length, data ++ rest) := by
    rw [asI64_of_lt h]
    exact decodeVarI64_encodeVarI64 (by omega) (by omega) _
  have hback : asU64 data.length = data.length := by
    rw [asU64_of_nonneg (by omega) (by omega), Int.toNat_natCast]
  rw [encodeCompactBytes, append_assoc, decodeCompactBytes, Decoder.run_bind_of_ok hlen,
    hback]
  change (if data.length ≤ (data ++ rest).length then _ else _) = _
  rw [if_pos (by simp), take_left, drop_left]

end Tikv.Codec
