import Tikv.Codec.Bytes

/-!
# Keys of the column families

A user key is stored in its memcomparable form and, in the default and the write CF, followed by
a timestamp in descending order. `compare_appendTs` is what the MVCC model assumes of the keys of
a column family: entries are ordered by user key and, for one user key, newest first, and no
bytes of a timestamp are ever compared with bytes of a user key.
-/

namespace Tikv

open Codec TimeStamp

/-- `Key`: the encoded form of a user key, with or without a timestamp. -/
structure Key where
  encoded : Bytes
  deriving DecidableEq

/-- Keys are compared byte by byte. -/
instance : Ord Key := ⟨fun k l => compare k.encoded l.encoded⟩

namespace Key

/-- `Key::from_raw`. -/
def fromRaw (key : Bytes) : Key := ⟨encodeBytes key false⟩

/-- `Key::append_ts`. -/
def appendTs (k : Key) (ts : ℕ) : Key := ⟨k.encoded ++ encodeU64Desc ts⟩

/-! ### The order -/

/-- Encoded user keys compare like user keys; what follows them matters only for equal ones. -/
theorem compare_fromRaw_append (a b x y : Bytes) :
    compare ((fromRaw a).encoded ++ x) ((fromRaw b).encoded ++ y) =
      (compare a b).then (compare x y) :=
  compare_encodeBytes_append a b x y

theorem compare_appendTs (a b : Bytes) {s t : ℕ} (hs : s ≤ max)
    (ht : t ≤ max) :
    compare ((fromRaw a).appendTs s) ((fromRaw b).appendTs t) =
      (compare a b).then (compare t s) := by
  have hmax : max < 2 ^ 64 := by decide
  change compare ((fromRaw a).encoded ++ _) ((fromRaw b).encoded ++ _) = _
  rw [compare_fromRaw_append, compare_encodeU64Desc (by omega) (by omega)]

/-- The order of the keys of a column family: by user key, then newest first. An encoded user
key is not a prefix of another one, and the descending encoding reverses the order. -/
theorem mvcc_key_order (a b : Bytes) {s t : ℕ} (hs : s ≤ max)
    (ht : t ≤ max) :
    compare ((fromRaw a).appendTs s) ((fromRaw b).appendTs t) =
      (compare a b).then (compare t s) ∧
    (a ≠ b → ¬ (fromRaw a).encoded <+: (fromRaw b).encoded ∧
      ∀ x y, compare ((fromRaw a).encoded ++ x) ((fromRaw b).encoded ++ y) = compare a b) ∧
    compare (encodeBytes a true) (encodeBytes b true) = compare b a := by
  refine ⟨compare_appendTs a b hs ht, ?_, ?_⟩
  · intro hne
    have hcmp : compare a b ≠ .eq := fun h => hne (Std.compare_eq_iff_eq.mp h)
    have happ : ∀ x y, compare ((fromRaw a).encoded ++ x) ((fromRaw b).encoded ++ y) =
        compare a b := by
      intro x y
      rw [compare_fromRaw_append]
      cases h : compare a b <;> simp_all
    refine ⟨?_, happ⟩
    rintro ⟨x, hx⟩
    have h := happ x []
    rw [List.append_nil, hx, Std.compare_eq_iff_eq.mpr rfl] at h
    exact hcmp h.symm
  · have h : compare (encodeBytes a true ++ []) (encodeBytes b true ++ []) = _ :=
      compare_encodeBytes_append a b [] []
    rw [List.append_nil, List.append_nil, List.compare_nil_nil, Ordering.then_eq] at h
    exact h

/-- A user key and a longer one with zero bytes at the end of a group, as the source's test
compares them. -/
theorem mvcc_key_order_trailing_zeros :
    compare ((fromRaw [1, 2, 3, 4, 5, 6, 7]).appendTs 5)
        ((fromRaw [1, 2, 3, 4, 5, 6, 7, 0]).appendTs 9) =
      (compare ([1, 2, 3, 4, 5, 6, 7] : Bytes) [1, 2, 3, 4, 5, 6, 7, 0]).then (compare 9 5) :=
  (mvcc_key_order _ _ (by decide) (by decide)).1

end Key

end Tikv
