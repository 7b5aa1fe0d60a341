import Mathlib.Data.List.Basic
import Tikv.Foundation.Fallible

/-!
# Logs that are appended to

An `AppendFile` is a file as a crash sees it: the symbols that were synced, which stay, and the
symbols appended since, of which any prefix may be left (`Survives`).

A log is a head followed by records. `RecordReader.replay` reads records off the front of what is
left of a log and applies them one after the other; it stops at a record that is cut off. If a cut
record is always recognised (`Encodes`), a log cut anywhere is read as a prefix of its records, and
no record that is there in full is missed (`Encodes.replay_cut`). `Holds` says which records a file
has and how many of them are synced.
-/

namespace Tikv

open List

universe u v w

/-- A file as a crash sees it. -/
structure AppendFile (β : Type u) where
  synced : List β
  /-- What was appended since. -/
  pending : List β
  deriving DecidableEq

namespace AppendFile

variable {β : Type u}

/-- What the file reads as while no crash happens. -/
def content (f : AppendFile β) : List β := f.synced ++ f.pending

/-- What a program does to the file. -/
inductive Effect (β : Type u)
  | append (b : List β)
  | syncAll
  /-- Another file, written and synced before, takes the name. -/
  | install (b : List β)
  deriving DecidableEq

def apply (f : AppendFile β) : Effect β → AppendFile β
  | .append b => { f with pending := f.pending ++ b }
  | .syncAll => ⟨f.synced ++ f.pending, []⟩
  | .install b => ⟨b, []⟩

/-- The file a crash can leave. -/
def Survives (f : AppendFile β) (b : List β) : Prop :=
  ∃ cut, cut <+: f.pending ∧ b = f.synced ++ cut

end AppendFile

/-- How a record is read off the front of a string of symbols: how many symbols it takes, and what
it says. -/
structure RecordReader (β : Type u) (ρ : Type v) (ε : Type w) where
  parse : List β → Except ε (ℕ × ρ)
  /-- The error says that the last record is cut off. -/
  isTail : ε → Bool
  used_pos : ∀ {b n r}, parse b = .ok (n, r) → 0 < n

namespace RecordReader

variable {β : Type u} {ρ : Type v} {ε : Type w} {σ : Type w}

theorem length_drop_lt (R : RecordReader β ρ ε) {b : List β} {n : ℕ} {r : ρ} (hb : ¬b = [])
    (h : R.parse b = .ok (n, r)) : (b.drop n).length < b.length := by
  have hpos := R.used_pos h
  have hlen := length_pos_iff.mpr hb
  rw [length_drop]
  omega

/-- Apply the records of a log, up to one that is cut off. -/
def replay (R : RecordReader β ρ ε) (act : σ → ρ → Except ε σ) (s : σ) (b : List β) :
    Except ε σ :=
  if _ : b = [] then .ok s
  else
    match _ : R.parse b with
    | .error e => if R.isTail e then .ok s else .error e
    | .ok (n, r) =>
      match act s r with
      | .error e => .error e
      | .ok t => R.replay act t (b.drop n)
  termination_by b.length
  decreasing_by exact R.length_drop_lt ‹_› ‹_›

variable {R : RecordReader β ρ ε} {act : σ → ρ → Except ε σ} {s t : σ} {b : List β}

@[simp]
theorem replay_nil : R.replay act s [] = .ok s := by
  rw [replay, dif_pos rfl]

theorem replay_tail {e : ε} (hb : b ≠ []) (h : R.parse b = .error e) (he : R.isTail e = true) :
    R.replay act s b = .ok s := by
  rw [replay, dif_neg hb]
  split
  · next e' he' =>
    obtain rfl : e = e' := Except.error.inj (h.symm.trans he')
    exact if_pos he
  · next he' => exact nomatch h.symm.trans he'

theorem replay_record {n : ℕ} {r : ρ} (hb : b ≠ []) (h : R.parse b = .ok (n, r))
    (hact : act s r = .ok t) : R.replay act s b = R.replay act t (b.drop n) := by
  rw [replay, dif_neg hb]
  split
  · next he' => exact nomatch h.symm.trans he'
  · next n' r' h' =>
    obtain ⟨rfl, rfl⟩ := Prod.mk.inj (ok_unique h h')
    rw [hact]

end RecordReader

open RecordReader

/-- The reader reads back what `encode` writes for the valid records, and recognises a record that
is cut off. -/
structure Encodes {β : Type u} {ρ : Type v} {ε : Type w} (R : RecordReader β ρ ε)
    (encode : ρ → List β) (Valid : ρ → Prop) : Prop where
  parse_encode : ∀ {r}, Valid r → ∀ rest, R.parse (encode r ++ rest) = .ok ((encode r).length, r)
  parse_cut : ∀ {r cut}, Valid r → cut <+: encode r → cut ≠ [] → cut ≠ encode r →
    ∃ e, R.parse cut = .error e ∧ R.isTail e = true

namespace Encodes

variable {β : Type u} {ρ : Type v} {ε : Type w} {σ : Type w} {R : RecordReader β ρ ε}
  {encode : ρ → List β} {Valid : ρ → Prop} {act : σ → ρ → Except ε σ} {s t : σ}

section

variable (hR : Encodes R encode Valid)
include hR

theorem encode_ne_nil {r : ρ} (hr : Valid r) : encode r ≠ [] :=
  fun hnil => absurd (R.used_pos (hR.parse_encode hr [])) (by simp [hnil])

/-- A log cut anywhere reads as a prefix of its records, and no record that is there in full is
missed. -/
theorem replay_cut {rs : List ρ} {cut : List β} (hvalid : ∀ r ∈ rs, Valid r)
    (hrun : rs.foldlM act s = .ok t) (hcut : cut <+: rs.flatMap encode) :
    ∃ n ≤ rs.length, R.replay act s cut = (rs.take n).foldlM act s ∧
      ∀ m ≤ rs.length, (rs.take m).flatMap encode <+: cut → m ≤ n := by
  induction rs generalizing s cut with
  | nil =>
    obtain rfl : cut = [] := prefix_nil.mp hcut
    exact ⟨0, Nat.le_refl _, replay_nil, fun m hm _ => hm⟩
  | cons r rs ih =>
    obtain ⟨hr, hvalid⟩ := forall_mem_cons.mp hvalid
    obtain ⟨u, hact, hrun⟩ := bind_eq_ok.mp hrun
    -- The cut is inside the first record, or behind it.
    by_cases hin : encode r <+: cut
    · obtain ⟨cut, rfl⟩ := hin
      obtain ⟨n, hn, hreplay, hall⟩ := ih hvalid hrun ((prefix_append_right_inj _).mp hcut)
      have hne : encode r ++ cut ≠ [] := by simp [hR.encode_ne_nil hr]
      refine ⟨n + 1, Nat.succ_le_succ hn, ?_, fun m hm hpre => ?_⟩
      · rw [replay_record hne (hR.parse_encode hr cut) hact, drop_left,
          hreplay, take_succ_cons, foldlM_cons, hact]
        rfl
      · cases m with
        | zero => exact Nat.zero_le _
        | succ m =>
          rw [take_succ_cons, flatMap_cons, prefix_append_right_inj] at hpre
          exact Nat.succ_le_succ (hall m (Nat.le_of_succ_le_succ hm) hpre)
    · have hlt : cut <+: encode r :=
        (List.prefix_or_prefix_of_prefix hcut (prefix_append _ _)).resolve_right hin
      refine ⟨0, Nat.zero_le _, ?_, fun m _ hpre => ?_⟩
      · rcases eq_or_ne cut [] with rfl | hne
        · exact replay_nil
        · obtain ⟨e, he, htail⟩ := hR.parse_cut hr hlt hne fun heq => hin (heq ▸ prefix_refl _)
          exact replay_tail hne he htail
      · cases m with
        | zero => exact Nat.le_refl _
        | succ m =>
          exact absurd ((prefix_append _ _).trans hpre) hin

theorem replay_all {rs : List ρ} (hvalid : ∀ r ∈ rs, Valid r) (hrun : rs.foldlM act s = .ok t) :
    R.replay act s (rs.flatMap encode) = .ok t := by
  obtain ⟨n, hn, hreplay, hall⟩ := hR.replay_cut hvalid hrun (prefix_refl _)
  obtain rfl : n = rs.length :=
    Nat.le_antisymm hn (hall _ (Nat.le_refl _) (by simp))
  rw [hreplay, take_length, hrun]

end

end Encodes

namespace AppendFile

variable {β : Type u} {ρ : Type v} {encode : ρ → List β} {head : List β} {rs : List ρ} {k : ℕ}
  {f : AppendFile β}

/-- The file is a log of the records `rs` behind `head`, and the first `k` of them are synced. -/
structure Holds (encode : ρ → List β) (head : List β) (rs : List ρ) (k : ℕ) (f : AppendFile β) :
    Prop where
  le : k ≤ rs.length
  synced : f.synced = head ++ (rs.take k).flatMap encode
  pending : f.pending = (rs.drop k).flatMap encode

namespace Holds

theorem install (encode : ρ → List β) (head : List β) (f : AppendFile β) :
    Holds encode head [] 0 (f.apply (.install head)) where
  le := Nat.le_refl _
  synced := (append_nil head).symm
  pending := rfl

section

variable (h : Holds encode head rs k f)
include h

theorem append (r : ρ) :
    Holds encode head (rs ++ [r]) k (f.apply (.append (encode r))) where
  le := by
    rw [length_append]
    exact Nat.le_add_right_of_le h.le
  synced := by
    rw [take_append_of_le_length h.le]
    exact h.synced
  pending := by
    rw [drop_append_of_le_length h.le, flatMap_append, flatMap_singleton,
      ← h.pending]
    rfl

theorem syncAll :
    Holds encode head rs rs.length (f.apply .syncAll) where
  le := Nat.le_refl _
  synced := by
    rw [apply, h.synced, h.pending, append_assoc, ← flatMap_append,
      take_append_drop, take_length]
  pending := by simp [apply]

theorem content_eq : f.content = head ++ rs.flatMap encode := by
  rw [content, h.synced, h.pending, append_assoc, ← flatMap_append,
    take_append_drop]

/-- After a crash the head is there, and of the records at least the synced ones. -/
theorem of_survives {b : List β} (hb : f.Survives b) :
    ∃ cut, b = head ++ cut ∧ cut <+: rs.flatMap encode ∧ (rs.take k).flatMap encode <+: cut := by
  obtain ⟨cut, hcut, rfl⟩ := hb
  refine ⟨(rs.take k).flatMap encode ++ cut, ?_, ?_, prefix_append _ _⟩
  · rw [h.synced, append_assoc]
  · conv_rhs => rw [← take_append_drop k rs, flatMap_append]
    rw [prefix_append_right_inj, ← h.pending]
    exact hcut

end

end Holds

end AppendFile

end Tikv
