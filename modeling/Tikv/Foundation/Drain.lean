import Mathlib.Data.List.Basic

/-!
# Calling an iterator until it is exhausted

An iterator answers each call with an item, with an error, or with "no more". A client that
goes on after errors sees the sequence **`drain`** collects.

`LoopsOver loop out I` is the rule for iterators that are loops over keys and stop at the first key
with something to report: `I ks s` says that in the state `s` the keys `ks` are still to come, one
iteration deals with the first of them as `out` says and leaves the rest, and with no key left the
loop ends. Then the whole sequence is what `out` reports for each key, in order
(`LoopsOver.drain_eq`). The first call may have to put the iterator into its first state (`start`).
-/

namespace Tikv

universe u v w

variable {ε : Type u} {α : Type u} {σ : Type v} {κ : Type w}

/-- What an answer reports, if it is not "no more". -/
def settled : Except ε (Option α) → Option (Except ε α)
  | .ok none => none
  | .ok (some a) => some (.ok a)
  | .error e => some (.error e)

theorem settled_map_some (r : Except ε α) : settled (some <$> r) = some r := by
  cases r <;> rfl

/-- Call `next` until it answers "no more", at most `n` times, and collect what it reports. -/
def drain (next : σ → Except ε (Option α) × σ) : ℕ → σ → Option (List (Except ε α))
  | 0, _ => none
  | n + 1, s =>
    match settled (next s).1 with
    | none => some []
    | some a => (drain next n (next s).2).map (a :: ·)

theorem drain_congr {next : σ → Except ε (Option α) × σ} {s s' : σ} (h : next s = next s')
    (n : ℕ) : drain next n s = drain next n s' := by
  cases n with
  | zero => rfl
  | succ n => rw [drain, drain, h]

/-- The loop deals with the keys in order, one in each iteration, and reports `out`. -/
structure LoopsOver (loop : ℕ → σ → Except ε (Option α) × σ) (out : κ → Option (Except ε α))
    (I : List κ → σ → Prop) : Prop where
  nil : ∀ n s, I [] s → settled (loop (n + 1) s).1 = none
  cons : ∀ n k ks s, I (k :: ks) s → ∃ s', I ks s' ∧ loop (n + 1) s =
    match out k with
    | none => loop n s'
    | some r => (some <$> r, s')

namespace LoopsOver

variable {loop : ℕ → σ → Except ε (Option α) × σ} {out : κ → Option (Except ε α)}
  {I : List κ → σ → Prop} {next : σ → Except ε (Option α) × σ} {ks : List κ} {s : σ} {n N : ℕ}

/-- A call runs to the first key with something to report, or to the end. -/
theorem call (h : LoopsOver loop out I) (hI : I ks s) (hn : ks.length < n) :
    match ks.filterMap out with
    | [] => settled (loop n s).1 = none
    | r :: rs => settled (loop n s).1 = some r ∧ ∃ ks', ks'.length < ks.length ∧
        I ks' (loop n s).2 ∧ ks'.filterMap out = rs := by
  -- Induction on the keys still to come; every iteration takes one of them.
  induction ks generalizing s n with
  | nil =>
    obtain ⟨m, rfl⟩ : ∃ m, n = m + 1 := ⟨n - 1, by simp at hn; omega⟩
    exact h.nil m s hI
  | cons k ks ih =>
    obtain ⟨m, rfl⟩ : ∃ m, n = m + 1 := ⟨n - 1, by simp at hn; omega⟩
    obtain ⟨s', hI', hloop⟩ := h.cons m k ks s hI
    cases hk : out k with
    | none =>
      rw [List.filterMap_cons_none hk, hloop, hk]
      have hrest := ih hI' (n := m) (by simpa using hn)
      split at hrest
      · exact hrest
      · obtain ⟨ha, ks', hlt, hI'', has⟩ := hrest
        exact ⟨ha, ks', Nat.lt_succ_of_lt hlt, hI'', has⟩
    | some r =>
      rw [List.filterMap_cons_some hk, hloop, hk]
      exact ⟨settled_map_some r, ks, by simp, hI', rfl⟩

theorem drain_of (h : LoopsOver loop out I) (hnext : ∀ ks s, I ks s → next s = loop N s)
    (hI : I ks s) (hN : ks.length < N) (hn : ks.length < n) :
    drain next n s = some (ks.filterMap out) := by
  induction n generalizing ks s with
  | zero => omega
  | succ n ih =>
    have hcall := h.call hI hN
    rw [drain, hnext ks s hI]
    split at hcall
    · next hnil => rw [hcall, hnil]
    · next r rs hcons =>
      obtain ⟨hr, ks', hlt, hI', hrs⟩ := hcall
      rw [hr, hcons]
      simp only [ih hI' (by omega) (by omega), hrs, Option.map_some]

/-- Draining the iterator from before its first call reports every key, in order. -/
theorem drain_eq {π : Type*} {start : σ → Except π σ} {s₀ : σ} (h : LoopsOver loop out I)
    (hnext : ∀ s s', start s = .ok s' → next s = loop N s')
    (hagain : ∀ ks s, I ks s → start s = .ok s) (hstart : start s₀ = .ok s) (hI : I ks s)
    (hN : ks.length < N) : drain next N s₀ = some (ks.filterMap out) := by
  have hloop : ∀ ks s, I ks s → next s = loop N s := fun ks s hI => hnext s s (hagain ks s hI)
  rw [drain_congr ((hnext s₀ s hstart).trans (hloop ks s hI).symm)]
  exact h.drain_of hloop hI hN hN

end LoopsOver

end Tikv
