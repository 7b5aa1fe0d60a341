import Mathlib.Data.List.Basic

/-!
# Runs of a transition system

`Exec R s es t` says that the events `es`, taken one after the other from the state `s`, can
lead to the state `t`, where `R s e t` is a single step. A property every step keeps holds in
every state a run reaches (`Exec.invariant`), and a run of a relation is a run of any larger
one (`Exec.mono`), so a condition on the steps of a run is a smaller relation.

Where the next state is computed by a function, a condition on the steps of a run can be
evaluated (`Along`).
-/

namespace Tikv

universe u v

variable {σ : Type u} {ε : Type v} {R R' : σ → ε → σ → Prop} {s t : σ} {es : List ε}

/-- The runs of a transition relation. -/
inductive Exec (R : σ → ε → σ → Prop) : σ → List ε → σ → Prop
  | nil (s : σ) : Exec R s [] s
  | cons {s t u : σ} {e : ε} {es : List ε} : R s e t → Exec R t es u → Exec R s (e :: es) u

namespace Exec

/-- What every step keeps holds at the end of every run. -/
theorem invariant {I : σ → Prop} (hstep : ∀ s e t, I s → R s e t → I t) (h : Exec R s es t)
    (hs : I s) : I t := by
  induction h with
  | nil => exact hs
  | cons hse _ ih => exact ih (hstep _ _ _ hs hse)

/-- Where a step has one outcome, a longer run from the same state goes on from the end of a
shorter one. -/
theorem of_append {es' : List ε} {u : σ} (hdet : ∀ s e t t', R s e t → R s e t' → t = t')
    (h : Exec R s es t) (h' : Exec R s (es ++ es') u) : Exec R t es' u := by
  induction h with
  | nil => exact h'
  | cons hse _ ih =>
    cases h' with
    | cons hse' hrest =>
      obtain rfl := hdet _ _ _ _ hse hse'
      exact ih hrest

theorem mono (hle : ∀ s e t, R s e t → R' s e t) (h : Exec R s es t) : Exec R' s es t := by
  induction h with
  | nil s => exact nil s
  | cons hse _ ih => exact cons (hle _ _ _ hse) ih

/-- The condition holds of every step of the run that the function computes. -/
def Along (f : σ → ε → σ) (C : σ → ε → σ → Prop) : σ → List ε → Prop
  | _, [] => True
  | s, e :: es => C s e (f s e) ∧ Along f C (f s e) es

instance Along.decidable {f : σ → ε → σ} {C : σ → ε → σ → Prop}
    [∀ s e t, Decidable (C s e t)] : ∀ s es, Decidable (Along f C s es)
  | _, [] => .isTrue trivial
  | _, _ :: _ => @instDecidableAnd _ _ inferInstance (Along.decidable ..)

theorem of_along {f : σ → ε → σ} {C : σ → ε → σ → Prop} (h : Along f C s es) :
    Exec (fun s e t => t = f s e ∧ C s e t) s es (es.foldl f s) := by
  induction es generalizing s with
  | nil => exact nil s
  | cons e es ih => exact cons ⟨rfl, h.1⟩ (ih h.2)

theorem of_foldlM {f : σ → ε → Option σ} (h : es.foldlM f s = some t) :
    Exec (fun s e t => f s e = some t) s es t := by
  induction es generalizing s with
  | nil =>
    obtain rfl : s = t := Option.some.inj h
    exact nil s
  | cons e es ih =>
    obtain ⟨u, hu, h⟩ := Option.bind_eq_some_iff.mp h
    exact cons hu (ih h)

end Exec

end Tikv
