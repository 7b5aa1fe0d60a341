import Mathlib.Data.List.Induction
import Mathlib.Logic.Basic

/-!
# Inverting fallible computations

A mapped or sequenced computation that returned a value had parts that returned.
-/

namespace Tikv

universe u v w

variable {ε : Type u} {α β : Type v}

@[simp] theorem ok_bind (a : α) (f : α → Except ε β) :
    (Except.ok a >>= f) = f a := rfl

theorem ok_unique {x : Except ε α} {a b : α} (h : x = .ok a) (h' : x = .ok b) : a = b :=
  Except.ok.inj (h.symm.trans h')

theorem ok_mk_inj {a a' : α} {b b' : β}
    (h : (.ok (a, b) : Except ε (α × β)) = .ok (a', b')) : a = a' ∧ b = b' :=
  Prod.mk.inj (Except.ok.inj h)

theorem bind_eq_ok {x : Except ε α} {f : α → Except ε β} {b : β} :
    x >>= f = .ok b ↔ ∃ a, x = .ok a ∧ f a = .ok b := by
  rcases x with e | a <;> simp [bind, Except.bind]

theorem bind_eq_error {x : Except ε α} {f : α → Except ε β} {e : ε} :
    x >>= f = .error e ↔ x = .error e ∨ ∃ a, x = .ok a ∧ f a = .error e := by
  rcases x with e | a <;> simp [bind, Except.bind]

theorem map_eq_ok {α : Type v} {β : Type w} {x : Except ε α} {f : α → β} {b : β} :
    x.map f = .ok b ↔ ∃ a, x = .ok a ∧ f a = b := by
  rcases x with e | a <;> simp [Except.map]

theorem foldlM_concat_eq_ok {α : Type v} {β : Type w} {f : α → β → Except ε α} {l : List β}
    {x : β} {a b : α} :
    (l ++ [x]).foldlM f a = .ok b ↔ ∃ c, l.foldlM f a = .ok c ∧ f c x = .ok b := by
  rw [List.foldlM_append, bind_eq_ok]
  have hlast : ∀ c, [x].foldlM f c = f c x := fun c => bind_pure (f c x)
  simp only [hlast]

/-- A loop returns if each of its steps does, by what holds after the elements that are done. -/
theorem exists_foldlM_ok {α : Type v} {β : Type w} {f : β → α → Except ε β} {l : List α} {b : β}
    {I : List α → β → Prop} (h : I [] b)
    (hstep : ∀ done a rest b, l = done ++ a :: rest → I done b →
      ∃ b', f b a = .ok b' ∧ I (done ++ [a]) b') : ∃ b', l.foldlM f b = .ok b' ∧ I l b' := by
  suffices hprefix : ∀ done rest, l = done ++ rest →
      ∃ b', done.foldlM f b = .ok b' ∧ I done b' from hprefix l [] (List.append_nil l).symm
  intro done
  induction done using List.reverseRecOn with
  | nil => exact fun _ _ => ⟨b, rfl, h⟩
  | append_singleton done a ih =>
    intro rest hl
    rw [List.append_assoc] at hl
    obtain ⟨b', hfold, hb'⟩ := ih _ hl
    obtain ⟨b'', hf, hb''⟩ := hstep done a rest b' hl hb'
    exact ⟨b'', foldlM_concat_eq_ok.mpr ⟨b', hfold, hf⟩, hb''⟩

/-- What each step of a loop keeps holds when it returns. -/
theorem foldlM_invariant {α : Type v} {β : Type w} {f : β → α → Except ε β} {l : List α}
    {b b' : β} {I : List α → β → Prop} (h : I [] b)
    (hstep : ∀ done a rest b b', l = done ++ a :: rest → I done b → f b a = .ok b' →
      I (done ++ [a]) b') (heq : l.foldlM f b = .ok b') : I l b' := by
  suffices hprefix : ∀ done rest b', l = done ++ rest → done.foldlM f b = .ok b' → I done b' from
    hprefix l [] b' (List.append_nil l).symm heq
  intro done
  induction done using List.reverseRecOn with
  | nil =>
    intro rest b' _ hfold
    cases hfold
    exact h
  | append_singleton done a ih =>
    intro rest b' hl hfold
    rw [List.append_assoc] at hl
    obtain ⟨c, hc, hf⟩ := foldlM_concat_eq_ok.mp hfold
    exact hstep done a rest c b' hl (ih _ c hl hc) hf

end Tikv
