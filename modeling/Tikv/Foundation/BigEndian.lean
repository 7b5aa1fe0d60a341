import Mathlib.Algebra.Order.Ring.Nat
import Mathlib.Data.List.Induction
import Tikv.Foundation.Lexicographic

/-!
# Fixed-width big-endian integers

`beBytes n v` writes the low `n` bytes of `v`, the most significant one first, and `ofBeBytes`
reads them back. Byte strings of one width compare like the numbers they stand for
(`compare_beBytes`), which is why fixed-width big-endian integers are used in ordered keys.
-/

namespace Tikv

/-- A string of bytes. -/
abbrev Bytes := List UInt8

/-- The `n` low bytes of `v`, the most significant one first. -/
def beBytes : ℕ → ℕ → Bytes
  | 0, _ => []
  | n + 1, v => beBytes n (v / 256) ++ [UInt8.ofNat v]

/-- The number a byte string stands for. -/
def ofBeBytes (b : Bytes) : ℕ := b.foldl (fun acc x => acc * 256 + x.toNat) 0

@[simp] theorem length_beBytes (n v : ℕ) : (beBytes n v).length = n := by
  induction n generalizing v with
  | zero => rfl
  | succ n ih => simp [beBytes, ih]

theorem ofBeBytes_append_singleton (b : Bytes) (x : UInt8) :
    ofBeBytes (b ++ [x]) = ofBeBytes b * 256 + x.toNat := by
  simp [ofBeBytes]

theorem ofBeBytes_beBytes {n v : ℕ} (h : v < 256 ^ n) : ofBeBytes (beBytes n v) = v := by
  induction n generalizing v with
  | zero =>
    rw [Nat.lt_one_iff.mp h]
    rfl
  | succ n ih =>
    have hdiv : v / 256 < 256 ^ n := by
      rw [Nat.div_lt_iff_lt_mul (by decide)]
      exact h
    rw [beBytes, ofBeBytes_append_singleton, ih hdiv, UInt8.toNat_ofNat']
    omega

theorem compare_ofNat {v w : ℕ} (hv : v < 256) (hw : w < 256) :
    compare (UInt8.ofNat v) (UInt8.ofNat w) = compare v w := by
  rw [UInt8.compare_eq_toNat_compare_toNat, UInt8.toNat_ofNat_of_lt' hv,
    UInt8.toNat_ofNat_of_lt' hw]

/-- Numbers compare by quotient and remainder. -/
theorem compare_eq_div_then_mod (v w d : ℕ) :
    compare v w = (compare (v / d) (w / d)).then (compare (v % d) (w % d)) := by
  have hv := Nat.div_add_mod v d
  have hw := Nat.div_add_mod w d
  rcases Nat.eq_zero_or_pos d with rfl | hd
  · simp
  rcases lt_trichotomy (v / d) (w / d) with h | h | h
  · have hlt : v < w := by
      by_contra hle
      exact absurd (Nat.div_le_div_right (not_lt.mp hle)) (not_le.mpr h)
    rw [Nat.compare_eq_lt.mpr h, Nat.compare_eq_lt.mpr hlt]
    rfl
  · rw [h, Nat.compare_eq_eq.mpr rfl, Ordering.eq_then]
    rw [h] at hv
    have : compare v w = compare (d * (w / d) + v % d) (d * (w / d) + w % d) := by rw [hv, hw]
    rw [this]
    simp only [Nat.compare_eq_ite_lt, add_lt_add_iff_left]
  · have hlt : w < v := by
      by_contra hle
      exact absurd (Nat.div_le_div_right (not_lt.mp hle)) (not_le.mpr h)
    rw [Nat.compare_eq_gt.mpr h, Nat.compare_eq_gt.mpr hlt]
    rfl

/-- Big-endian bytes compare like the numbers. -/
theorem compare_beBytes {n v w : ℕ} (hv : v < 256 ^ n) (hw : w < 256 ^ n) :
    compare (beBytes n v) (beBytes n w) = compare v w := by
  induction n generalizing v w with
  | zero =>
    rw [pow_zero, Nat.lt_one_iff] at hv hw
    subst hv hw
    rfl
  | succ n ih =>
    have hdiv : ∀ {m}, m < 256 ^ (n + 1) → m / 256 < 256 ^ n := by
      intro m hm
      rw [Nat.div_lt_iff_lt_mul (by decide)]
      exact hm
    have hmod : ∀ m, UInt8.ofNat m = UInt8.ofNat (m % 256) := by
      intro m
      apply UInt8.toNat_inj.mp
      simp
    rw [beBytes, beBytes, compare_append (by simp), ih (hdiv hv) (hdiv hw),
      List.compare_cons_cons, List.compare_nil_nil, Ordering.then_eq, hmod v, hmod w,
      compare_ofNat (Nat.mod_lt _ (by decide)) (Nat.mod_lt _ (by decide)),
      ← compare_eq_div_then_mod]

end Tikv
