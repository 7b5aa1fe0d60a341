import Mathlib.Tactic.NormNum
import Mathlib.Tactic.Ring
import Tikv.Foundation.BigEndian
import Tikv.TxnTypes

/-!
# The number codecs

`tikv_util::codec::number` writes integers in two ways: eight big-endian bytes, complemented
where the order is to be descending, and varints of seven bits a byte. Records are read back by
two decoders of varints that were written independently, `decode_var_u64` of this crate and
`try_decode_var_u64` of the `codec` crate. They differ only on ten bytes that do not fit a
64-bit number (**`varint_decoders_agree`**).

A decoder moves a slice forward, so it is a computation with the bytes that are left as its
state. Each section ends with the round trip: the decoder, run on an encoded value and any
further bytes, returns the value and leaves the further bytes.

Numbers are natural numbers below `2 ^ 64`; the bitwise operations are those of the source.
-/

namespace Tikv

/-- The errors of the codecs. -/
inductive CodecError
  /-- `Error::unexpected_eof()`. -/
  | unexpectedEof
  /-- A varint that does not fit 64 bits. -/
  | overflow
  | keyPadding
  deriving DecidableEq

/-- A decoder reads a value from the front of the bytes that are left. -/
abbrev Decoder (α : Type) := StateT Bytes (Except CodecError) α

theorem Decoder.run_bind_of_ok {α β : Type} {x : Decoder α} {f : α → Decoder β}
    {data rest : Bytes} {a : α} (h : x.run data = .ok (a, rest)) :
    (x >>= f).run data = (f a).run rest := by
  rw [StateT.run_bind, h]
  rfl

namespace Codec

/-- `U64_SIZE`. -/
def u64Size : ℕ := 8

/-- `MAX_VAR_U64_LEN`. -/
def maxVarU64Len : ℕ := 10

/-- `MAX_VAR_I64_LEN`. -/
def maxVarI64Len : ℕ := 10

/-- The complement `!v` of a 64-bit number. -/
def notU64 (v : ℕ) : ℕ := 2 ^ 64 - 1 - v

/-! ### Eight big-endian bytes -/

/-- `encode_u64`: ascending order. -/
def encodeU64 (v : ℕ) : Bytes := beBytes u64Size v

/-- `encode_u64_desc`: descending order. -/
def encodeU64Desc (v : ℕ) : Bytes := beBytes u64Size (notU64 v)

/-- `read_num_bytes`. -/
def readNumBytes {α : Type} (size : ℕ) (f : Bytes → α) : Decoder α := fun data =>
  if size ≤ data.length then .ok (f (data.take size), data.drop size)
  else .error .unexpectedEof

/-- `decode_u64`. -/
def decodeU64 : Decoder ℕ := readNumBytes u64Size ofBeBytes

@[simp] theorem length_encodeU64 (v : ℕ) : (encodeU64 v).length = 8 := length_beBytes _ _

theorem notU64_lt (v : ℕ) : notU64 v < 2 ^ 64 := by
  rw [notU64]
  omega

theorem compare_notU64 {v w : ℕ} (hv : v < 2 ^ 64) (hw : w < 2 ^ 64) :
    compare (notU64 v) (notU64 w) = compare w v := by
  simp only [notU64, Nat.compare_eq_ite_lt]
  split_ifs <;> first | rfl | omega

theorem readNumBytes_append {α : Type} {size : ℕ} {b : Bytes} (h : b.length = size)
    (rest : Bytes) (f : Bytes → α) :
    (readNumBytes size f).run (b ++ rest) = .ok (f b, rest) := by
  change (if size ≤ (b ++ rest).length then _ else _) = _
  rw [if_pos (by simp [h]), ← h, List.take_left, List.drop_left]

theorem decodeU64_encodeU64 {v : ℕ} (h : v < 2 ^ 64) (rest : Bytes) :
    decodeU64.run (encodeU64 v ++ rest) = .ok (v, rest) := by
  rw [decodeU64, encodeU64, readNumBytes_append (length_beBytes u64Size v),
    ofBeBytes_beBytes (by simpa [u64Size] using h)]

theorem compare_encodeU64Desc {v w : ℕ} (hv : v < 2 ^ 64) (hw : w < 2 ^ 64) :
    compare (encodeU64Desc v) (encodeU64Desc w) = compare w v := by
  rw [encodeU64Desc, encodeU64Desc,
    compare_beBytes (by simpa [u64Size] using notU64_lt v)
      (by simpa [u64Size] using notU64_lt w), compare_notU64 hv hw]

/-! ### Varints -/

/-- `encode_var_u64`. -/
def encodeVarU64 (v : ℕ) : Bytes :=
  if 0x80 ≤ v then (UInt8.ofNat v ||| 0x80) :: encodeVarU64 (v >>> 7)
  else [UInt8.ofNat v]
termination_by v
decreasing_by
  rw [Nat.shiftRight_eq_div_pow]
  omega

/-- How a pass over at most so many bytes of a varint ends. -/
inductive VarStep
  /-- A byte without the continuation bit was read: the value and the bytes after it. -/
  | done (v : ℕ) (rest : Bytes)
  /-- The pass ended before such a byte. -/
  | more (res : ℕ) (rest : Bytes)

/-- The loop of both decoders: the payload of byte `i` is or-ed in at shift `7 * i`. -/
def decodeVarLoop : (bytes i res : ℕ) → Bytes → VarStep
  | 0, _, res, data => .more res data
  | _ + 1, _, res, [] => .more res []
  | n + 1, i, res, b :: data =>
    let res := res ||| ((b.toNat &&& 0x7f) <<< (i * 7))
    if b < 0x80 then .done res data else decodeVarLoop n (i + 1) res data

/-- `decode_var_u64` of `tikv_util`. -/
def decodeVarU64 : Decoder ℕ := fun data =>
  match data with
  | [] => .error .unexpectedEof
  | b :: rest =>
    if b < 0x80 then
      -- Most values need one byte only.
      .ok (b.toNat &&& 0x7f, rest)
    else if 10 ≤ data.length ∨ data.getLastD 0 < 0x80 then
      match decodeVarLoop 9 0 0 data with
      | .done v rest => .ok (v, rest)
      | .more res (b :: rest) =>
        if b ≤ 1 then .ok (res ||| ((b.toNat &&& 0x7f) <<< (9 * 7)), rest)
        else .error .overflow
      -- Not reached: the tenth byte is only read unchecked where it exists.
      | .more _ [] => .error .unexpectedEof
    else
      match decodeVarLoop data.length 0 0 data with
      | .done v rest => .ok (v, rest)
      | .more _ _ => .error .unexpectedEof

/-- `NumberCodec::try_decode_var_u64` of `codec`, which masks the tenth byte instead of
checking it. -/
def tryDecodeVarU64 : Decoder ℕ := fun data =>
  if maxVarU64Len ≤ data.length then
    match decodeVarLoop 9 0 0 data with
    | .done v rest => .ok (v, rest)
    | .more val (b :: rest) => .ok (val ||| ((b.toNat &&& 0x01) <<< (9 * 7)), rest)
    -- Not reached: there are ten bytes.
    | .more _ [] => .error .unexpectedEof
  else
    match decodeVarLoop data.length 0 0 data with
    | .done v rest => .ok (v, rest)
    | .more _ _ => .error .unexpectedEof

/-! The bitwise operations, as arithmetic. -/

theorem and_0x7f (m : ℕ) : m &&& 0x7f = m % 128 := Nat.and_two_pow_sub_one_eq_mod m 7

theorem and_0x01 (m : ℕ) : m &&& 0x01 = m % 2 := Nat.and_two_pow_sub_one_eq_mod m 1

theorem toNat_ofNat_or_0x80 (v : ℕ) : (UInt8.ofNat v ||| 0x80).toNat = v % 128 + 128 := by
  have hor : ∀ x : Fin 256, x.val ||| 128 = x.val % 128 + 128 := by decide +kernel
  have hv : v % 256 < 256 := Nat.mod_lt _ (by decide)
  change v % 256 ||| 128 = _
  rw [hor ⟨v % 256, hv⟩]
  dsimp only
  omega

theorem or_shiftLeft {res i : ℕ} (hres : res < 2 ^ (i * 7)) (m : ℕ) :
    res ||| (m <<< (i * 7)) = res + m * 2 ^ (i * 7) := by
  rw [Nat.shiftLeft_eq, Nat.or_comm, mul_comm m, ← Nat.two_pow_add_eq_or_of_lt hres, add_comm]

theorem add_payload_lt {res i m : ℕ} (hres : res < 2 ^ (i * 7)) (hm : m < 128) :
    res + m * 2 ^ (i * 7) < 2 ^ ((i + 1) * 7) := by
  have hpow : 2 ^ ((i + 1) * 7) = 128 * 2 ^ (i * 7) := by
    rw [add_mul, pow_add]
    omega
  have hle : (m + 1) * 2 ^ (i * 7) ≤ 128 * 2 ^ (i * 7) := Nat.mul_le_mul_right _ hm
  rw [add_mul] at hle
  omega

theorem encodeVarU64_of_lt {v : ℕ} (h : v < 128) : encodeVarU64 v = [UInt8.ofNat v] := by
  rw [encodeVarU64, if_neg (by omega)]

theorem encodeVarU64_of_le {v : ℕ} (h : 128 ≤ v) :
    encodeVarU64 v = (UInt8.ofNat v ||| 0x80) :: encodeVarU64 (v / 128) := by
  rw [encodeVarU64, if_pos h, Nat.shiftRight_eq_div_pow]

theorem length_encodeVarU64_pos (v : ℕ) : 0 < (encodeVarU64 v).length := by
  rw [encodeVarU64]
  split <;> simp

theorem length_encodeVarU64_le {n v : ℕ} (h : v < 2 ^ ((n + 1) * 7)) :
    (encodeVarU64 v).length ≤ n + 1 := by
  induction n generalizing v with
  | zero =>
    rw [encodeVarU64_of_lt (by simpa using h)]
    simp
  | succ n ih =>
    by_cases hv : v < 128
    · rw [encodeVarU64_of_lt hv]
      simp
    · have hdiv : v / 128 < 2 ^ ((n + 1) * 7) := by
        rw [Nat.div_lt_iff_lt_mul (by decide)]
        rwa [add_mul, pow_add] at h
      rw [encodeVarU64_of_le (not_lt.mp hv)]
      exact Nat.succ_le_succ (ih hdiv)

theorem length_encodeVarU64 {v : ℕ} (h : v < 2 ^ 64) :
    (encodeVarU64 v).length ≤ maxVarU64Len :=
  length_encodeVarU64_le (h.trans (by norm_num))

/-! The loop over the bytes the encoder wrote. -/

theorem decodeVarLoop_last {n i res : ℕ} {b : UInt8} (hres : res < 2 ^ (i * 7))
    (hb : b.toNat < 128) (data : Bytes) :
    decodeVarLoop (n + 1) i res (b :: data) = .done (res + b.toNat * 2 ^ (i * 7)) data := by
  have hlt : b < 0x80 := UInt8.lt_iff_toNat_lt.mpr hb
  rw [decodeVarLoop, if_pos hlt, and_0x7f, Nat.mod_eq_of_lt hb, or_shiftLeft hres]

variable {n i res v : ℕ}

theorem decodeVarLoop_continue (hres : res < 2 ^ (i * 7)) (data : Bytes) :
    decodeVarLoop (n + 1) i res ((UInt8.ofNat v ||| 0x80) :: data) =
      decodeVarLoop n (i + 1) (res + v % 128 * 2 ^ (i * 7)) data := by
  have hb := toNat_ofNat_or_0x80 v
  have hlt : ¬ (UInt8.ofNat v ||| 0x80) < 0x80 := by
    rw [UInt8.lt_iff_toNat_lt]
    change ¬ _ < 128
    omega
  rw [decodeVarLoop, if_neg hlt, hb, and_0x7f, Nat.add_mod_right, Nat.mod_mod,
    or_shiftLeft hres]

/-- A pass that may read all bytes of a varint returns its value. -/
theorem decodeVarLoop_encode (hn : (encodeVarU64 v).length ≤ n) (hres : res < 2 ^ (i * 7))
    (rest : Bytes) :
    decodeVarLoop n i res (encodeVarU64 v ++ rest) = .done (res + v * 2 ^ (i * 7)) rest := by
  induction n generalizing i res v with
  | zero => exact absurd (length_encodeVarU64_pos v) (by omega)
  | succ n ih =>
    by_cases hv : v < 128
    · have hb : (UInt8.ofNat v).toNat = v := UInt8.toNat_ofNat_of_lt' (hv.trans (by decide))
      rw [encodeVarU64_of_lt hv, List.singleton_append,
        decodeVarLoop_last hres (by rw [hb]; exact hv), hb]
    · rw [encodeVarU64_of_le (not_lt.mp hv), List.length_cons] at hn
      rw [encodeVarU64_of_le (not_lt.mp hv), List.cons_append, decodeVarLoop_continue hres,
        ih (by omega) (add_payload_lt hres (Nat.mod_lt _ (by decide)))]
      have hpow : 2 ^ ((i + 1) * 7) = 128 * 2 ^ (i * 7) := by
        rw [add_mul, pow_add]
        omega
      have hv' := Nat.div_add_mod v 128
      congr 1
      calc res + v % 128 * 2 ^ (i * 7) + v / 128 * 2 ^ ((i + 1) * 7)
          = res + (128 * (v / 128) + v % 128) * 2 ^ (i * 7) := by rw [hpow]; ring
        _ = res + v * 2 ^ (i * 7) := by rw [hv']

/-- A pass over fewer bytes than the varint has stops in the middle of it. -/
theorem decodeVarLoop_encode_more (hv : 2 ^ (n * 7) ≤ v) (hres : res < 2 ^ (i * 7)) (rest : Bytes) :
    decodeVarLoop n i res (encodeVarU64 v ++ rest) =
      .more (res + v % 2 ^ (n * 7) * 2 ^ (i * 7)) (encodeVarU64 (v / 2 ^ (n * 7)) ++ rest) := by
  induction n generalizing i res v with
  | zero => simp [decodeVarLoop, Nat.mod_one]
  | succ n ih =>
    have hpow : 2 ^ ((n + 1) * 7) = 128 * 2 ^ (n * 7) := by
      rw [add_mul, pow_add]
      omega
    have hpos : 0 < 2 ^ (n * 7) := Nat.two_pow_pos _
    have hle : 128 ≤ v := le_trans (by omega) hv
    have hdiv : 2 ^ (n * 7) ≤ v / 128 := by
      omega
    rw [encodeVarU64_of_le hle, List.cons_append, decodeVarLoop_continue hres,
      ih hdiv (add_payload_lt hres (Nat.mod_lt _ (by decide))), hpow, Nat.div_div_eq_div_mul,
      Nat.mod_mul]
    congr 1
    ring

/-- The first nine bytes of a ten-byte varint: the top bit is left. -/
theorem decodeVarLoop_encode_nine {v : ℕ} (hle : 2 ^ 63 ≤ v) (hlt : v < 2 ^ 64)
    (rest : Bytes) :
    decodeVarLoop 9 0 0 (encodeVarU64 v ++ rest) = .more (v - 2 ^ 63) (1 :: rest) := by
  have hdiv : v / 2 ^ (9 * 7) = 1 := by omega
  have hmod : v % 2 ^ (9 * 7) = v - 2 ^ 63 := by omega
  rw [decodeVarLoop_encode_more hle (by decide), hdiv, hmod, encodeVarU64_of_lt (by decide)]
  simp

theorem or_top_bit {v : ℕ} (hle : 2 ^ 63 ≤ v) (hlt : v < 2 ^ 64) :
    (v - 2 ^ 63) ||| (1 <<< (9 * 7)) = v := by
  rw [or_shiftLeft (by omega)]
  omega

/-- A pass that has read `n` bytes has met continuation bytes only. -/
theorem decodeVarLoop_eq_more_iff {data rest : Bytes} {b : UInt8} :
    (∃ res', decodeVarLoop n i res data = .more res' (b :: rest)) ↔
      ∃ bytes : Bytes, data = bytes ++ b :: rest ∧ bytes.length = n ∧ ∀ c ∈ bytes, 0x80 ≤ c := by
  induction n generalizing i res data with
  | zero => simp [decodeVarLoop]
  | succ n ih =>
    cases data with
    | nil => simp [decodeVarLoop]
    | cons c data =>
      rw [decodeVarLoop]
      by_cases hc : c < 0x80
      · simp only [hc, if_true, reduceCtorEq, exists_false, false_iff, not_exists]
        rintro (_ | ⟨d, bytes⟩) ⟨hdata, hlen, hall⟩
        · cases hlen
        · cases hdata
          exact absurd hc (UInt8.not_lt.mpr (hall c List.mem_cons_self))
      · simp only [hc, if_false, ih]
        constructor
        · rintro ⟨bytes, rfl, hlen, hall⟩
          exact ⟨c :: bytes, rfl, congrArg (· + 1) hlen,
            List.forall_mem_cons.mpr ⟨UInt8.not_lt.mp hc, hall⟩⟩
        · rintro ⟨_ | ⟨d, bytes⟩, hdata, hlen, hall⟩
          · cases hlen
          · cases hdata
            exact ⟨bytes, rfl, Nat.succ.inj hlen, (List.forall_mem_cons.mp hall).2⟩

theorem decodeVarLoop_of_length_le {data : Bytes} (h : data.length ≤ n) :
    decodeVarLoop data.length i res data = decodeVarLoop n i res data := by
  induction data generalizing n i res with
  | nil => cases n <;> rfl
  | cons c data ih =>
    obtain ⟨n, rfl⟩ := Nat.exists_eq_succ_of_ne_zero (Nat.ne_zero_of_lt h)
    rw [List.length_cons, decodeVarLoop, decodeVarLoop, ih (Nat.le_of_succ_le_succ h)]

/-- The end of a decoder after nine bytes; `last` gives the payload of a tenth byte. -/
def VarStep.finish (last : UInt8 → Option ℕ) : VarStep → Except CodecError (ℕ × Bytes)
  | .done v rest => .ok (v, rest)
  | .more res (b :: rest) =>
    match last b with
    | some m => .ok (res ||| (m <<< (9 * 7)), rest)
    | none => .error .overflow
  | .more _ [] => .error .unexpectedEof

variable {last : UInt8 → Option ℕ}

/-- Fewer than ten bytes are read without a limit. -/
theorem finish_of_length_lt {data : Bytes} (h : data.length < 10) :
    (match decodeVarLoop data.length 0 0 data with
      | .done v rest => .ok (v, rest)
      | .more _ _ => .error .unexpectedEof) = (decodeVarLoop 9 0 0 data).finish last := by
  rw [decodeVarLoop_of_length_le (Nat.le_of_lt_succ h)]
  cases hstep : decodeVarLoop 9 0 0 data with
  | done v rest => rfl
  | more res rest =>
    cases rest with
    | nil => rfl
    | cons b rest =>
      obtain ⟨bytes, rfl, hlen, -⟩ := decodeVarLoop_eq_more_iff.mp ⟨res, hstep⟩
      rw [List.length_append, List.length_cons] at h
      omega

/-- Both decoders are the loop over nine bytes; this one rejects a tenth byte above `1`. -/
theorem decodeVarU64_eq (data : Bytes) : decodeVarU64.run data =
    (decodeVarLoop 9 0 0 data).finish fun b => if b ≤ 1 then some (b.toNat &&& 0x7f) else none := by
  change decodeVarU64 data = _
  unfold decodeVarU64
  cases data with
  | nil => rfl
  | cons b data =>
    dsimp only
    by_cases hb : b < 0x80
    · rw [if_pos hb, decodeVarLoop, if_pos hb]
      simp [VarStep.finish]
    · rw [if_neg hb]
      split
      · cases decodeVarLoop 9 0 0 (b :: data) with
        | done v rest => rfl
        | more res rest =>
          cases rest with
          | nil => rfl
          | cons b rest =>
            rw [VarStep.finish]
            dsimp only
            split_ifs <;> rfl
      · next h =>
        rw [not_or] at h
        exact finish_of_length_lt (not_le.mp h.1)

theorem tryDecodeVarU64_eq (data : Bytes) : tryDecodeVarU64.run data =
    (decodeVarLoop 9 0 0 data).finish fun b => some (b.toNat &&& 0x01) := by
  change tryDecodeVarU64 data = _
  rw [tryDecodeVarU64]
  split
  · rcases decodeVarLoop 9 0 0 data with ⟨v, rest⟩ | ⟨res, _ | ⟨b, rest⟩⟩ <;> rfl
  · next h => exact finish_of_length_lt (not_le.mp h)

theorem finish_encodeVarU64 (hlast : last 1 = some 1) {v : ℕ} (h : v < 2 ^ 64) (rest : Bytes) :
    (decodeVarLoop 9 0 0 (encodeVarU64 v ++ rest)).finish last = .ok (v, rest) := by
  by_cases hbig : v < 2 ^ 63
  · have hnine : (encodeVarU64 v).length ≤ 9 := length_encodeVarU64_le hbig
    rw [decodeVarLoop_encode hnine (by decide)]
    simp [VarStep.finish]
  · rw [decodeVarLoop_encode_nine (not_lt.mp hbig) h, VarStep.finish, hlast]
    dsimp only
    rw [or_top_bit (not_lt.mp hbig) h]

theorem decodeVarU64_encodeVarU64 {v : ℕ} (h : v < 2 ^ 64) (rest : Bytes) :
    decodeVarU64.run (encodeVarU64 v ++ rest) = .ok (v, rest) := by
  rw [decodeVarU64_eq, finish_encodeVarU64 rfl h]

theorem tryDecodeVarU64_encodeVarU64 {v : ℕ} (h : v < 2 ^ 64) (rest : Bytes) :
    tryDecodeVarU64.run (encodeVarU64 v ++ rest) = .ok (v, rest) := by
  rw [tryDecodeVarU64_eq, finish_encodeVarU64 rfl h]

/-! ### Signed varints

The sign goes to the lowest bit, so that numbers near zero stay short. -/

/-- A 64-bit number as a signed one. -/
def asI64 (v : ℕ) : ℤ := if v < 2 ^ 63 then v else v - 2 ^ 64

/-- A signed number as a 64-bit one. -/
def asU64 (v : ℤ) : ℕ := (v % 2 ^ 64).toNat

/-- `encode_var_i64`. -/
def encodeVarI64 (v : ℤ) : Bytes :=
  let vx := asU64 (2 * v)
  encodeVarU64 (if v < 0 then notU64 vx else vx)

/-- `decode_var_i64`. -/
def decodeVarI64 : Decoder ℤ := do
  let v ← decodeVarU64
  let vx := v >>> 1
  return if v &&& 1 = 0 then asI64 vx else asI64 (notU64 vx)

theorem asI64_of_lt {v : ℕ} (h : v < 2 ^ 63) : asI64 v = v := by
  rw [asI64, if_pos h]

theorem asU64_of_nonneg {v : ℤ} (h0 : 0 ≤ v) (h : v < 2 ^ 64) : asU64 v = v.toNat := by
  rw [asU64, Int.emod_eq_of_lt h0 h]

theorem asU64_lt (v : ℤ) : asU64 v < 2 ^ 64 := by
  rw [asU64]
  omega

theorem length_encodeVarI64 (v : ℤ) : (encodeVarI64 v).length ≤ maxVarI64Len := by
  apply length_encodeVarU64
  split
  · exact notU64_lt _
  · exact asU64_lt _

/-- `decode_var_i64` undoes the zigzag. -/
theorem zigzag {v : ℤ} (hlo : -2 ^ 63 ≤ v) (hhi : v < 2 ^ 63) :
    ∃ u < 2 ^ 64, encodeVarI64 v = encodeVarU64 u ∧
      (if u &&& 1 = 0 then asI64 (u >>> 1) else asI64 (notU64 (u >>> 1))) = v := by
  rw [encodeVarI64]
  split_ifs with hv
  · have hx : notU64 (asU64 (2 * v)) = (-2 * v - 1).toNat := by
      rw [notU64, asU64]
      omega
    refine ⟨_, notU64_lt _, rfl, ?_⟩
    rw [hx, and_0x01, if_neg (by omega), asI64, notU64]
    split <;> omega
  · have hx : asU64 (2 * v) = (2 * v).toNat := asU64_of_nonneg (by omega) (by omega)
    refine ⟨_, asU64_lt _, rfl, ?_⟩
    rw [hx, and_0x01, if_pos (by omega), asI64_of_lt (by omega)]
    omega

theorem decodeVarI64_encodeVarI64 {v : ℤ} (hlo : -2 ^ 63 ≤ v) (hhi : v < 2 ^ 63)
    (rest : Bytes) : decodeVarI64.run (encodeVarI64 v ++ rest) = .ok (v, rest) := by
  obtain ⟨u, hu, henc, hzig⟩ := zigzag hlo hhi
  rw [decodeVarI64, henc, Decoder.run_bind_of_ok (decodeVarU64_encodeVarU64 hu rest)]
  dsimp only
  rw [hzig]
  rfl

/-! ### The decoders agree -/

/-- `NumberCodec::try_decode_var_i64`. -/
def tryDecodeVarI64 : Decoder ℤ := do
  let uv ← tryDecodeVarU64
  let v := uv >>> 1
  return if uv &&& 1 = 0 then asI64 v else asI64 (notU64 v)

/-- Both decoders read what `encode` writes. The second one reads all that the first one reads, and
else only bytes of the kind `wide`. -/
structure DecodersAgree {α : Type} (encode : α → Bytes) (inRange : α → Prop) (wide : Bytes → Prop)
    (strict lax : Decoder α) : Prop where
  run_encode : ∀ v, inRange v → ∀ rest, strict.run (encode v ++ rest) = .ok (v, rest) ∧
    lax.run (encode v ++ rest) = .ok (v, rest)
  lax_of_strict : ∀ data r, strict.run data = .ok r → lax.run data = .ok r
  only_lax : ∀ data, (∃ r, lax.run data = .ok r) ∧ (∀ r, strict.run data ≠ .ok r) ↔ wide data

/-- Nine continuation bytes, and a tenth byte above `1`. -/
def TenthByteWide (data : Bytes) : Prop :=
  ∃ (b : UInt8) (rest : Bytes), (∃ bytes : Bytes, data = bytes ++ b :: rest ∧ bytes.length = 9 ∧
    ∀ c ∈ bytes, 0x80 ≤ c) ∧ 1 < b

/-- The two decoders of `u64` differ in a tenth byte with more than one bit. -/
theorem decodeVarU64_agree :
    DecodersAgree encodeVarU64 (· < 2 ^ 64) TenthByteWide decodeVarU64 tryDecodeVarU64 where
  run_encode v h rest := ⟨decodeVarU64_encodeVarU64 h rest, tryDecodeVarU64_encodeVarU64 h rest⟩
  lax_of_strict data r h := by
    rw [decodeVarU64_eq] at h
    rw [tryDecodeVarU64_eq]
    rcases hstep : decodeVarLoop 9 0 0 data with ⟨v, rest⟩ | ⟨res, _ | ⟨b, rest⟩⟩
    · rwa [hstep] at h
    · rwa [hstep] at h
    · rw [hstep, VarStep.finish] at h
      split_ifs at h with hb
      have hlast : b.toNat &&& 0x7f = b.toNat &&& 0x01 := by
        have hle : b.toNat ≤ 1 := UInt8.le_iff_toNat_le.mp hb
        rw [and_0x7f, and_0x01]
        omega
      rwa [hlast] at h
  only_lax data := by
    rw [decodeVarU64_eq, tryDecodeVarU64_eq]
    simp only [TenthByteWide, ← @decodeVarLoop_eq_more_iff _ 0 0]
    rcases decodeVarLoop 9 0 0 data with ⟨v, rest⟩ | ⟨res, _ | ⟨b, rest⟩⟩
    · simp [VarStep.finish]
    · simp [VarStep.finish]
    · by_cases hb : b ≤ 1
      · simp [VarStep.finish, hb]
      · simpa [VarStep.finish, hb] using UInt8.not_le.mp hb

/-- Numbers that are turned into others on the way. -/
theorem DecodersAgree.map {α β : Type} {encode : α → Bytes} {encode' : β → Bytes}
    {inRange : α → Prop} {inRange' : β → Prop} {wide : Bytes → Prop} {strict lax : Decoder α}
    (h : DecodersAgree encode inRange wide strict lax) (f : α → β)
    (hf : ∀ w, inRange' w → ∃ v, inRange v ∧ encode' w = encode v ∧ f v = w) :
    DecodersAgree encode' inRange' wide (strict >>= fun v => pure (f v))
      (lax >>= fun v => pure (f v)) where
  run_encode w hw rest := by
    obtain ⟨v, hv, henc, rfl⟩ := hf w hw
    obtain ⟨hstrict, hlax⟩ := h.run_encode v hv rest
    rw [henc, Decoder.run_bind_of_ok hstrict, Decoder.run_bind_of_ok hlax]
    exact ⟨rfl, rfl⟩
  lax_of_strict data r hr := by
    obtain ⟨⟨v, rest⟩, hv, hr⟩ := bind_eq_ok.mp hr
    rw [Decoder.run_bind_of_ok (h.lax_of_strict data _ hv)]
    exact hr
  only_lax data := by
    rw [← h.only_lax data, StateT.run_bind, StateT.run_bind]
    rcases lax.run data with e | r <;> rcases strict.run data with e' | r' <;> simp

/-- **The two varint decoders agree**, on unsigned and on signed numbers. -/
theorem varint_decoders_agree :
    DecodersAgree encodeVarU64 (· < 2 ^ 64) TenthByteWide decodeVarU64 tryDecodeVarU64 ∧
    DecodersAgree encodeVarI64 (fun v => -2 ^ 63 ≤ v ∧ v < 2 ^ 63) TenthByteWide decodeVarI64
      tryDecodeVarI64 := by
  refine ⟨decodeVarU64_agree, decodeVarU64_agree.map
    (fun u => if u &&& 1 = 0 then asI64 (u >>> 1) else asI64 (notU64 (u >>> 1))) ?_⟩
  exact fun v hv => zigzag hv.1 hv.2

end Codec

end Tikv
